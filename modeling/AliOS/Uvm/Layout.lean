import AliOS.Uvm.Build

/-!
# AliOS.Uvm.Layout

The invariant of a set of address spaces.  `Layout` gives every frame the
kernel's page tables lead to one role (the kernel's own, a directory, one page
table of one directory, the data of one user page), so that no store into one
of them can hit another, and keeps all of them in the identity map, so that the
kernel's stores go where the code says.

`pteAt` is the entry of a user page in an address space, 0 if its table does
not exist.  The lemmas say for each change the kernel makes (an entry, a new
table, a new directory, a frame outside the tables) that the invariant stays
and which entries change.
-/

namespace AliOS

open Lib

variable {v d f i : Nat}

/-! ## entries -/

theorem hasFlag_or (x y flag : Nat) :
    hasFlag (x ||| y) flag = (hasFlag x flag || hasFlag y flag) := by
  unfold hasFlag
  rw [Nat.and_or_distrib_right, Bool.eq_iff_iff, Bool.or_eq_true, bne_iff_ne,
    bne_iff_ne, bne_iff_ne, Ne, Nat.or_eq_zero_iff, not_and_or]

theorem hasFlag_and (w : Nat) {mask flag : Nat} (h : mask &&& flag = flag) :
    hasFlag (w &&& mask) flag = hasFlag w flag := by
  unfold hasFlag
  rw [Nat.and_assoc, h]

/-- The page numbers of user space, `0x08000000` to `0xBFFFFFFF`. -/
def UserPage (v : Nat) : Prop := 32768 ≤ v ∧ v < 786432

instance (v : Nat) : Decidable (UserPage v) := inferInstanceAs (Decidable (_ ∧ _))

theorem UserPage.table (h : UserPage v) : 32 ≤ v / 1024 ∧ v / 1024 < 768 := by
  unfold UserPage at h
  omega

/-- The entry of page `v` in the address space of directory `d`. -/
def pteAt (mem : Bytes) (d v : Nat) : Nat :=
  if hasFlag (word mem d (v / 1024)) pagePresent then
    word mem (word mem d (v / 1024) / 4096) (v % 1024)
  else 0

theorem pteAt_congr {mem mem' : Bytes} (hdir : word mem' d (v / 1024) = word mem d (v / 1024))
    (htab : hasFlag (word mem d (v / 1024)) pagePresent →
      page mem' (word mem d (v / 1024) / 4096) = page mem (word mem d (v / 1024) / 4096)) :
    pteAt mem' d v = pteAt mem d v := by
  unfold pteAt
  rw [hdir]
  by_cases hp : hasFlag (word mem d (v / 1024)) pagePresent = true
  · rw [if_pos hp, if_pos hp, word_congr (by omega) (htab hp)]
  · rw [if_neg hp, if_neg hp]

/-- The processor's walk finds that entry. -/
theorem walk_eq_pteAt (mem : Bytes) (d a : Nat) : walk mem (d * 4096) a =
    if hasFlag (pteAt mem d (a / 4096)) pagePresent then
      some (word mem d (a / 2 ^ 22), pteAt mem d (a / 4096))
    else none := by
  rw [walk_eq]
  unfold pteAt
  rw [show a / 4096 / 1024 = a / 2 ^ 22 by omega, show a / 4096 % 1024 = a / 2 ^ 12 % 1024 from rfl]
  by_cases hp : hasFlag (word mem d (a / 2 ^ 22)) pagePresent = true
  · rw [if_pos hp, if_pos hp]
  · rw [if_neg hp, if_neg hp, if_neg (by decide)]

/-- Where a ring-0 write goes, in terms of that entry. -/
theorem kwrite_eq_pteAt {m : Machine} (hcr3 : m.cr3 = d * 4096) (a : Nat) : m.kwrite a =
    if hasFlag (pteAt m.mem d (a / 4096)) pagePresent then
      if m.writeProtect && !(hasFlag (word m.mem d (a / 2 ^ 22)) pageWrite &&
          hasFlag (pteAt m.mem d (a / 4096)) pageWrite) then none
      else some (pteAt m.mem d (a / 4096) / 4096 * 4096 + a % 4096)
    else none := by
  unfold Machine.kwrite
  rw [hcr3, walk_eq_pteAt]
  by_cases hp : hasFlag (pteAt m.mem d (a / 4096)) pagePresent = true
  · rw [if_pos hp, if_pos hp, Option.bind_some]
    rfl
  · rw [if_neg hp, if_neg hp]
    rfl

/-! ## the invariant -/

/-- What a frame is used for. -/
inductive Role where
  /-- the kernel's page directory and its identity tables -/
  | kernel
  | dir
  /-- page table `i` of directory `d` -/
  | tab (d i : Nat)
  /-- the content of user page `v`, in every space that maps it -/
  | data (v : Nat)
deriving DecidableEq

/-- The address spaces `ds` lie in frames with the roles `owner`; `k` is the
frame of `page_dir`, `kt` are the frames of the identity tables. -/
structure Layout (m : Machine) (ds : Finset Nat) (kt : Nat → Nat) (k : Nat)
    (owner : Nat → Option Role) : Prop where
  owned : ∀ f r, owner f = some r → Low f ∧ pageIsFree m.pmm f = false
  zero : pageIsFree m.pmm 0 = false
  pageDir : m.pageDir = k * 4096
  kernel : owner k = some .kernel ∧ ∀ i < identityTables, owner (kt i) = some .kernel
  idTables : IdTables m.mem kt
  kernelDir : IdDir m.mem kt k
  dirs : ∀ d ∈ ds, owner d = some .dir ∧ IdDir m.mem kt d
  tables : ∀ d ∈ ds, ∀ i, 32 ≤ i → i < 768 → hasFlag (word m.mem d i) pagePresent = true →
    owner (word m.mem d i / 4096) = some (.tab d i) ∧
      hasFlag (word m.mem d i) pageWrite = true ∧ hasFlag (word m.mem d i) pageUser = true
  pages : ∀ d ∈ ds, ∀ v, UserPage v → hasFlag (pteAt m.mem d v) pagePresent = true →
    owner (pteAt m.mem d v / 4096) = some (.data v) ∧ hasFlag (pteAt m.mem d v) pageUser = true
  cr3 : ∃ c, m.cr3 = c * 4096 ∧ (c = k ∨ c ∈ ds)

section Layout

variable {m m' : Machine} {ds : Finset Nat} {kt : Nat → Nat} {k : Nat}
  {owner owner' : Nat → Option Role}

/-- Frames of different roles are different. -/
theorem ne_of_role {g : Nat} {r r' : Role} (hf : owner f = some r) (hg : owner g = some r')
    (h : r ≠ r') :
    f ≠ g := by
  rintro rfl
  rw [hf] at hg
  exact h (Option.some.inj hg)

section

variable (h : Layout m ds kt k owner)

include h

theorem Layout.unowned (hf : pageIsFree m.pmm f) :
    owner f = none := by
  cases hr : owner f with
  | none => rfl
  | some r =>
    rw [(h.owned f r hr).2] at hf
    cases hf

/-- The directory in CR3 is one of those the identity map is entered in. -/
theorem Layout.idMapped :
    ∃ c, IdMapped m kt c ∧ (owner c = some .kernel ∨ owner c = some .dir) := by
  obtain ⟨c, hc, rfl | hmem⟩ := h.cr3
  · exact ⟨c, ⟨hc, h.kernelDir, h.idTables⟩, .inl h.kernel.1⟩
  · exact ⟨c, ⟨hc, (h.dirs c hmem).2, h.idTables⟩, .inr (h.dirs c hmem).1⟩

theorem Layout.outside {c : Nat}
    (hc : owner c = some .kernel ∨ owner c = some .dir)
    (hf : owner f ≠ some .kernel ∧ owner f ≠ some .dir) :
    Outside kt c f where
  dir := by
    rintro rfl
    exact hc.elim hf.1 hf.2
  tables := fun i hi => by
    rintro rfl
    exact hf.1 (h.kernel.2 i hi)

/-- The frame of a page table. -/
theorem Layout.table_low (hd : d ∈ ds) (hlo : 32 ≤ i) (hhi : i < 768)
    (hp : hasFlag (word m.mem d i) pagePresent) :
    Low (word m.mem d i / 4096) :=
  (h.owned _ _ (h.tables d hd i hlo hhi hp).1).1

theorem Layout.dir_low (hd : d ∈ ds) : Low d :=
  (h.owned _ _ (h.dirs d hd).1).1

/-! ## changes -/

/-- A step that gives roles to new frames and changes no frame of the tables:
the invariant and all entries stay. -/
theorem Layout.extend (hcr3 : m'.cr3 = m.cr3)
    (hdir : m'.pageDir = m.pageDir) (hzero : pageIsFree m'.pmm 0 = false)
    (hrole : ∀ f r, owner f = some r → owner' f = some r)
    (howned : ∀ f r, owner' f = some r → Low f ∧ pageIsFree m'.pmm f = false)
    (hpages : ∀ f r, owner f = some r → (∀ v, r ≠ .data v) → page m'.mem f = page m.mem f) :
    Layout m' ds kt k owner' ∧ ∀ d ∈ ds, ∀ v, UserPage v → pteAt m'.mem d v = pteAt m.mem d v := by
  have hword : ∀ d ∈ ds, ∀ i < 1024, word m'.mem d i = word m.mem d i := fun d hd i hi =>
    word_congr hi (hpages d _ (h.dirs d hd).1 (by simp))
  have hpte : ∀ d ∈ ds, ∀ v, UserPage v → pteAt m'.mem d v = pteAt m.mem d v := by
    intro d hd v hv
    obtain ⟨hlo, hhi⟩ := hv.table
    exact pteAt_congr (hword d hd _ (by omega)) fun hp =>
      hpages _ _ (h.tables d hd _ hlo hhi hp).1 (by simp)
  refine ⟨⟨howned, hzero, hdir.trans h.pageDir,
    ⟨hrole _ _ h.kernel.1, fun i hi => hrole _ _ (h.kernel.2 i hi)⟩,
    h.idTables.congr fun i hi => hpages _ _ (h.kernel.2 i hi) (by simp),
    h.kernelDir.congr (hpages _ _ h.kernel.1 (by simp)),
    fun d hd => ⟨hrole _ _ (h.dirs d hd).1,
      (h.dirs d hd).2.congr (hpages _ _ (h.dirs d hd).1 (by simp))⟩,
    fun d hd i hlo hhi hp => ?_, fun d hd v hv hp => ?_, ?_⟩, hpte⟩
  · rw [hword d hd i (by omega)] at hp ⊢
    exact ⟨hrole _ _ (h.tables d hd i hlo hhi hp).1, (h.tables d hd i hlo hhi hp).2⟩
  · rw [hpte d hd v hv] at hp ⊢
    exact ⟨hrole _ _ (h.pages d hd v hv hp).1, (h.pages d hd v hv hp).2⟩
  · rw [hcr3]
    exact h.cr3

/-- A byte of a user page changes. -/
theorem Layout.update (hf : owner f = some (.data v)) (hi : i < 4096) (b : UInt8) :
    Layout { m with mem := Function.update m.mem (f * 4096 + i) b } ds kt k owner ∧
      ∀ x ∈ ds, ∀ u, UserPage u →
        pteAt (Function.update m.mem (f * 4096 + i) b) x u = pteAt m.mem x u :=
  h.extend rfl rfl h.zero (fun _ _ hr => hr) h.owned
    fun g _ hg hne => onlyFrame_update m.mem f hi b g (ne_of_role hg hf (hne _))

/-- A new directory without user entries joins. -/
theorem Layout.addDir {t : Nat} (ht : owner t = some .dir)
    (hid : IdDir m.mem kt t) (hzero : ∀ i, 32 ≤ i → i < 768 → word m.mem t i = 0) :
    Layout m (insert t ds) kt k owner := by
  refine ⟨h.owned, h.zero, h.pageDir, h.kernel, h.idTables, h.kernelDir, fun d hd => ?_,
    fun d hd i hlo hhi hp => ?_, fun d hd v hv hp => ?_, ?_⟩
  · obtain rfl | hd := Finset.mem_insert.mp hd
    · exact ⟨ht, hid⟩
    · exact h.dirs d hd
  · obtain rfl | hd := Finset.mem_insert.mp hd
    · rw [hzero i hlo hhi] at hp
      exact absurd hp (by decide)
    · exact h.tables d hd i hlo hhi hp
  · obtain rfl | hd := Finset.mem_insert.mp hd
    · unfold pteAt at hp
      rw [hzero _ hv.table.1 hv.table.2, if_neg (by decide)] at hp
      exact absurd hp (by decide)
    · exact h.pages d hd v hv hp
  · obtain ⟨c, hc, hmem⟩ := h.cr3
    exact ⟨c, hc, hmem.imp id (Finset.mem_insert_of_mem ·)⟩

/-- A store into a page table changes one entry of one space. -/
theorem Layout.pteAt_setWord {w : Nat} (hd : d ∈ ds) (hv : UserPage v)
    (hp : hasFlag (word m.mem d (v / 1024)) pagePresent) (hw : w < 2 ^ 32) {x : Nat} (hx : x ∈ ds)
    {u : Nat} (hu : UserPage u) :
    pteAt (setWord m.mem (word m.mem d (v / 1024) / 4096) (v % 1024) w) x u =
      if x = d ∧ u = v then w else pteAt m.mem x u := by
  have hj : v % 1024 < 1024 := Nat.mod_lt _ (by decide)
  have htab := (h.tables d hd _ hv.table.1 hv.table.2 hp).1
  generalize htdef : word m.mem d (v / 1024) / 4096 = t at htab ⊢
  obtain ⟨hlo, hhi⟩ := hu.table
  have hword : word (setWord m.mem t (v % 1024) w) x (u / 1024) = word m.mem x (u / 1024) :=
    word_congr (by omega) (page_setWord hj (ne_of_role (h.dirs x hx).1 htab (by simp)))
  unfold pteAt
  rw [hword]
  by_cases hpx : hasFlag (word m.mem x (u / 1024)) pagePresent = true
  · rw [if_pos hpx, if_pos hpx, word_setWord hj (by omega) hw]
    have hiff : (word m.mem x (u / 1024) / 4096 = t ∧ u % 1024 = v % 1024) ↔ (x = d ∧ u = v) := by
      constructor
      · rintro ⟨heq, hmod⟩
        have hrole := (h.tables x hx _ hlo hhi hpx).1
        rw [heq, htab, Option.some.injEq, Role.tab.injEq] at hrole
        exact ⟨hrole.1.symm, by omega⟩
      · rintro ⟨rfl, rfl⟩
        exact ⟨htdef, rfl⟩
    by_cases hc : x = d ∧ u = v
    · rw [if_pos hc, if_pos (hiff.mpr hc)]
    · rw [if_neg hc, if_neg fun hh => hc (hiff.mp hh)]
  · rw [if_neg hpx, if_neg hpx, if_neg]
    rintro ⟨rfl, rfl⟩
    exact hpx hp

/-- An entry of an existing table changes to one that fits. -/
theorem Layout.setPte {w : Nat} (hd : d ∈ ds) (hv : UserPage v)
    (hp : hasFlag (word m.mem d (v / 1024)) pagePresent) (hw : w < 2 ^ 32)
    (hval : hasFlag w pagePresent → owner (w / 4096) = some (.data v) ∧ hasFlag w pageUser) :
    Layout { m with mem := setWord m.mem (word m.mem d (v / 1024) / 4096) (v % 1024) w }
      ds kt k owner ∧
      ∀ x ∈ ds, ∀ u, UserPage u →
        pteAt (setWord m.mem (word m.mem d (v / 1024) / 4096) (v % 1024) w) x u =
          if x = d ∧ u = v then w else pteAt m.mem x u := by
  have hpte := fun x hx u hu => h.pteAt_setWord hd hv hp hw (x := x) hx (u := u) hu
  have htab := (h.tables d hd _ hv.table.1 hv.table.2 hp).1
  generalize word m.mem d (v / 1024) / 4096 = t at htab hpte ⊢
  -- only the table changes: no directory and no frame of the kernel
  have hsame : ∀ {g r}, owner g = some r → r ≠ .tab d (v / 1024) →
      page (setWord m.mem t (v % 1024) w) g = page m.mem g :=
    fun hg hne => page_setWord (by omega) (ne_of_role hg htab hne)
  refine ⟨⟨h.owned, h.zero, h.pageDir, h.kernel,
    h.idTables.congr fun i hi => hsame (h.kernel.2 i hi) (by simp),
    h.kernelDir.congr (hsame h.kernel.1 (by simp)),
    fun x hx => ⟨(h.dirs x hx).1, (h.dirs x hx).2.congr (hsame (h.dirs x hx).1 (by simp))⟩,
    fun x hx i hlo hhi hpx => ?_, fun x hx u hu hpu => ?_, h.cr3⟩, hpte⟩
  · have hword : word (setWord m.mem t (v % 1024) w) x i = word m.mem x i :=
      word_congr (by omega) (hsame (h.dirs x hx).1 (by simp))
    rw [hword] at hpx ⊢
    exact h.tables x hx i hlo hhi hpx
  · rw [hpte x hx u hu] at hpu ⊢
    by_cases hc : x = d ∧ u = v
    · rw [if_pos hc] at hpu ⊢
      rw [hc.2]
      exact hval hpu
    · rw [if_neg hc] at hpu ⊢
      exact h.pages x hx u hu hpu

/-- An empty table is entered into a directory; no entry of a page changes. -/
theorem Layout.link (hd : d ∈ ds) (hlo : 32 ≤ i) (hhi : i < 768)
    (habs : ¬hasFlag (word m.mem d i) pagePresent) (hf : owner f = some (.tab d i))
    (hzero : ∀ j < 1024, word m.mem f j = 0) :
    Layout { m with mem := setWord m.mem d i (f * 4096 ||| 7) } ds kt k owner ∧
      (∀ x ∈ ds, ∀ j < 1024, word (setWord m.mem d i (f * 4096 ||| 7)) x j =
        if x = d ∧ j = i then f * 4096 ||| 7 else word m.mem x j) ∧
      ∀ x ∈ ds, ∀ u, UserPage u →
        pteAt (setWord m.mem d i (f * 4096 ||| 7)) x u = pteAt m.mem x u := by
  have hi : i < 1024 := by omega
  have hdir := (h.dirs d hd).1
  have hsame : ∀ {g r}, owner g = some r → r ≠ .dir →
      page (setWord m.mem d i (f * 4096 ||| 7)) g = page m.mem g :=
    fun hg hne => page_setWord hi (ne_of_role hg hdir hne)
  have hflow := (h.owned f _ hf).1
  have hlt : f * 4096 ||| 7 < 2 ^ 32 := mul_or_lt (by unfold Low at hflow; omega) (by decide)
  have hword : ∀ x ∈ ds, ∀ j < 1024, word (setWord m.mem d i (f * 4096 ||| 7)) x j =
      if x = d ∧ j = i then f * 4096 ||| 7 else word m.mem x j :=
    fun x _ j hj => word_setWord hi hj hlt
  have hpte : ∀ x ∈ ds, ∀ u, UserPage u →
      pteAt (setWord m.mem d i (f * 4096 ||| 7)) x u = pteAt m.mem x u := by
    intro x hx u hu
    obtain ⟨hulo, huhi⟩ := hu.table
    by_cases hc : x = d ∧ u / 1024 = i
    · -- the new table is empty, the missing one had no entries
      have hw := hword x hx (u / 1024) (by omega)
      rw [if_pos hc] at hw
      have hpres : hasFlag (f * 4096 ||| 7) pagePresent := by
        rw [hasFlag_mul_or f 7 (by decide)]
        decide
      unfold pteAt
      rw [hw, if_pos hpres, mul_or_div (by decide),
        word_congr (by omega) (hsame hf (by simp)),
        hzero _ (by omega), hc.1, hc.2, if_neg habs]
    · have hw := hword x hx (u / 1024) (by omega)
      rw [if_neg hc] at hw
      exact pteAt_congr hw fun hp => hsame (h.tables x hx _ hulo huhi hp).1 (by simp)
  refine ⟨⟨h.owned, h.zero, h.pageDir, h.kernel,
    h.idTables.congr fun i hi => hsame (h.kernel.2 i hi) (by simp),
    h.kernelDir.congr (hsame h.kernel.1 (by simp)), fun x hx => ⟨(h.dirs x hx).1, fun j hj => ?_⟩,
    fun x hx j hjlo hjhi hp => ?_, fun x hx u hu hp => ?_, h.cr3⟩, hword, hpte⟩
  · have hj' : j < 32 := hj
    rw [hword x hx j (by omega), if_neg (by omega)]
    exact (h.dirs x hx).2 j hj
  · rw [hword x hx j (by omega)] at hp ⊢
    by_cases hc : x = d ∧ j = i
    · rw [if_pos hc, mul_or_div (by decide), hasFlag_mul_or f 7 (by decide),
        hasFlag_mul_or f 7 (by decide), hc.1, hc.2]
      exact ⟨hf, by decide, by decide⟩
    · rw [if_neg hc] at hp ⊢
      exact h.tables x hx j hjlo hjhi hp
  · rw [hpte x hx u hu] at hp ⊢
    exact h.pages x hx u hu hp

/-- Another address space becomes the current one. -/
theorem Layout.switch {c : Nat} (hc : c ∈ ds) :
    Layout { m with cr3 := c * 4096 } ds kt k owner :=
  ⟨h.owned, h.zero, h.pageDir, h.kernel, h.idTables, h.kernelDir, h.dirs, h.tables, h.pages,
    c, rfl, .inr hc⟩

/-- Of the allocator only the frames in use play a role. -/
theorem Layout.withPmm {s : Pmm}
    (hused : ∀ f, pageIsFree m.pmm f = false → pageIsFree s f = false) :
    Layout { m with pmm := s } ds kt k owner :=
  ⟨fun f r hf => ⟨(h.owned f r hf).1, hused f (h.owned f r hf).2⟩, hused 0 h.zero, h.pageDir,
    h.kernel, h.idTables, h.kernelDir, h.dirs, h.tables, h.pages, h.cr3⟩

end

end Layout

end AliOS
