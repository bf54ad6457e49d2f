import AliOS.Uvm.Layout
import AliOS.Lib.Cow

/-!
# AliOS.Uvm.Share

Address spaces as a `Store` of the copy-on-write library: an entry is the frame
and the write mode a page-table entry encodes, reference counts are those of
the allocator.  `uvm_create` makes a space without entries, and each iteration of
the inner loop of `uvm_clone` that finds a page enters it there.
-/

namespace AliOS

open Lib Option Function

/-! ## address spaces as a store -/

/-- How a page-table entry lets its page be written. -/
def modeOf (pte : Nat) : Mode :=
  if hasFlag pte pageWrite then .writable
  else if hasFlag pte pageCow then .cow
  else .readOnly

def entryOf (pte : Nat) : Option (Entry Nat) :=
  if hasFlag pte pagePresent then some ⟨pte / 4096, modeOf pte⟩ else none

/-- The user pages of the spaces `ds`. -/
def toStore (m : Machine) (ds : Finset Nat) : Store Nat Nat Nat (Fin 4096 → UInt8) where
  live := ds
  entry := fun d v => if UserPage v then entryOf (pteAt m.mem d v) else none
  content := page m.mem
  refs := m.pmm.pageRefs

theorem entry_toStore {m : Machine} {ds : Finset Nat} {d v : Nat} {e : Entry Nat} :
    (toStore m ds).entry d v = some e ↔
      UserPage v ∧ hasFlag (pteAt m.mem d v) pagePresent ∧
        e = ⟨pteAt m.mem d v / 4096, modeOf (pteAt m.mem d v)⟩ := by
  unfold toStore entryOf
  by_cases hv : UserPage v
  · by_cases hp : hasFlag (pteAt m.mem d v) pagePresent = true
    · simp [hv, hp, eq_comm]
    · simp [hv, hp]
  · simp [hv]

/-- The entries of a later state: a new one where `c` holds, the old ones elsewhere. -/
theorem entry_toStore_ite {m m' : Machine} {ds : Finset Nat} {x u : Nat} {c : Prop} [Decidable c]
    {e : Option (Entry Nat)} (hc : c → UserPage u)
    (h : UserPage u → entryOf (pteAt m'.mem x u) = if c then e else entryOf (pteAt m.mem x u)) :
    (toStore m' ds).entry x u = if c then e else (toStore m ds).entry x u := by
  dsimp only [toStore]
  by_cases hu : UserPage u
  · rw [if_pos hu, if_pos hu, h hu]
  · rw [if_neg hu, if_neg hu, if_neg fun h' => hu (hc h')]

theorem entry_toStore_eq_none {m : Machine} {ds : Finset Nat} {d v : Nat} :
    (toStore m ds).entry d v = none ↔
      (UserPage v → ¬hasFlag (pteAt m.mem d v) pagePresent) := by
  unfold toStore entryOf
  by_cases hv : UserPage v
  · by_cases hp : hasFlag (pteAt m.mem d v) pagePresent = true
    · simp [hv, hp]
    · simp [hv, hp]
  · simp [hv]

theorem modeOf_mul_or (f b : Nat) : modeOf (f * 4096 ||| b) = modeOf b := by
  unfold modeOf
  rw [hasFlag_mul_or f b (by decide), hasFlag_mul_or f b (by decide)]

theorem entryOf_mul_or {f b : Nat} (hb : b < 4096) (hp : hasFlag b pagePresent) :
    entryOf (f * 4096 ||| b) = some ⟨f, modeOf b⟩ := by
  unfold entryOf
  rw [hasFlag_mul_or f b (by decide), if_pos hp, mul_or_div hb, modeOf_mul_or]

section Steps

variable {m m' : Machine} {ds : Finset Nat} {kt : Nat → Nat} {k : Nat}
  {owner owner' : Nat → Option Role}

theorem Layout.role_of_entry (h : Layout m ds kt k owner) {d v : Nat} {e : Entry Nat} (hd : d ∈ ds)
    (he : (toStore m ds).entry d v = some e) : owner e.frame = some (.data v) := by
  obtain ⟨hv, hp, rfl⟩ := entry_toStore.mp he
  exact (h.pages d hd v hv hp).1

/-! ## making room -/

/-- What making a directory or a table leaves alone: roles, the content of user
pages, the counts of the frames in use, the directories other than `d`, and the
frames beyond 128 MB. -/
structure Grows (d : Nat) (m m' : Machine) (owner owner' : Nat → Option Role) : Prop where
  regs : SameRegs m m'
  role : ∀ f r, owner f = some r → owner' f = some r
  data : ∀ f v, owner f = some (.data v) → page m'.mem f = page m.mem f
  refs : ∀ f r, owner f = some r → m'.pmm.pageRefs f = m.pmm.pageRefs f
  dirs : ∀ f, owner f = some .dir → f ≠ d → page m'.mem f = page m.mem f
  high : ∀ f, ¬Low f → pageIsFree m'.pmm f = pageIsFree m.pmm f

theorem Grows.refl (d : Nat) (m : Machine) (owner : Nat → Option Role) : Grows d m m owner owner :=
  ⟨.refl m, fun _ _ h => h, fun _ _ _ => rfl, fun _ _ _ => rfl, fun _ _ _ => rfl, fun _ _ => rfl⟩

theorem Grows.trans {d : Nat} {m m' m'' : Machine} {owner owner' owner'' : Nat → Option Role}
    (h : Grows d m m' owner owner')
    (h' : Grows d m' m'' owner' owner'') : Grows d m m'' owner owner'' where
  regs := h.regs.trans h'.regs
  role := fun f r hf => h'.role f r (h.role f r hf)
  data := fun f v hf => (h'.data f v (h.role f _ hf)).trans (h.data f v hf)
  refs := fun f r hf => (h'.refs f r (h.role f r hf)).trans (h.refs f r hf)
  dirs := fun f hf hne => (h'.dirs f (h.role f _ hf) hne).trans (h.dirs f hf hne)
  high := fun f hf => (h'.high f hf).trans (h.high f hf)

section

variable (h : Layout m ds kt k owner)

include h

/-- A fresh frame gets a role, and only that frame is written. -/
theorem Layout.grant {f : Nat} (hlow : Low f)
    (hfree : pageIsFree m.pmm f) {mem' : Bytes} (honly : OnlyFrame f m.mem mem') (r : Role)
    (d : Nat) :
    (Layout { m with mem := mem', pmm := m.pmm.grant f } ds kt k
      (Function.update owner f (some r)) ∧
      ∀ x ∈ ds, ∀ v, UserPage v → pteAt mem' x v = pteAt m.mem x v) ∧
    Grows d m { m with mem := mem', pmm := m.pmm.grant f } owner
      (Function.update owner f (some r)) := by
  have hnone := h.unowned hfree
  have hne : ∀ {g r'}, owner g = some r' → g ≠ f := by
    rintro g r' hg rfl
    rw [hnone] at hg
    cases hg
  have hrole : ∀ g r', owner g = some r' → Function.update owner f (some r) g = some r' := by
    intro g r' hg
    rw [update_of_ne (hne hg), hg]
  have howned : ∀ g r', Function.update owner f (some r) g = some r' →
      Low g ∧ pageIsFree (m.pmm.grant f) g = false := by
    intro g r' hg
    by_cases hgf : g = f
    · subst hgf
      exact ⟨hlow, by simp⟩
    · rw [update_of_ne hgf] at hg
      exact ⟨(h.owned g r' hg).1, by simp [(h.owned g r' hg).2]⟩
  refine ⟨h.extend rfl rfl (by simp [h.zero]) hrole howned fun g r' hg _ => honly g (hne hg),
    ⟨rfl, rfl⟩, hrole, fun g v hg => honly g (hne hg), fun g r' hg => by simp [hne hg],
    fun g hg _ => honly g (hne hg), fun g hg => ?_⟩
  have hgf : g ≠ f := by
    rintro rfl
    exact hg hlow
  simp [hgf]

/-- `uvm_create` adds an address space without pages. -/
theorem Layout.uvmCreate (hroom : 0 < freeBelow 32768 m.pmm) :
    ∃ t m' owner', uvmCreate m = some (t * 4096, m') ∧ t ≠ 0 ∧ t ∉ ds ∧
      Layout m' (insert t ds) kt k owner' ∧ Grows t m m' owner owner' ∧
      (∀ d ∈ ds, ∀ v, UserPage v → pteAt m'.mem d v = pteAt m.mem d v) ∧
      (∀ i, 32 ≤ i → i < 768 → word m'.mem t i = 0) ∧
      freeBelow 32768 m'.pmm + 1 = freeBelow 32768 m.pmm := by
  obtain ⟨t, hlow, ht0, hfree, halloc⟩ := Machine.alloc_below (by decide) h.zero hroom
  have hnone := h.unowned hfree
  obtain ⟨c, hid, hc⟩ := h.idMapped
  have hkt : k ≠ t := by
    rintro rfl
    rw [h.kernel.1] at hnone
    cases hnone
  obtain ⟨mem', hcreate, honly, hwords⟩ :=
    hid.uvmCreate hlow ht0 (h.outside hc (by simp [hnone])) h.pageDir hkt halloc
  obtain ⟨⟨hlay, hpte⟩, hgrow⟩ := h.grant hlow hfree honly .dir t
  have hzero : ∀ i, 32 ≤ i → i < 768 → word mem' t i = 0 := fun i hlo hhi => by
    rw [hwords i (by omega), if_neg (by omega)]
  have hdir : IdDir mem' kt t := fun i hi => by
    have hi' : i < 32 := hi
    rw [hwords i (by omega), if_pos (.inl hi')]
    exact h.kernelDir i hi
  refine ⟨t, _, _, hcreate, ht0, fun hmem => ?_, hlay.addDir (by simp) hdir hzero,
    hgrow, hpte, hzero, freeBelow_grant hlow hfree⟩
  rw [(h.dirs t hmem).1] at hnone
  cases hnone

/-- The table of `uvm_map` exists afterwards; no page is mapped or unmapped. -/
theorem Layout.uvmTable {d i : Nat} (hd : d ∈ ds) (hlo : 32 ≤ i)
    (hhi : i < 768)
    (hroom : ¬hasFlag (word m.mem d i) pagePresent → 0 < freeBelow 32768 m.pmm) :
    ∃ m' owner', uvmTable m (d * 4096) i = some (some (word m'.mem d i / 4096 * 4096), m') ∧
      hasFlag (word m'.mem d i) pagePresent ∧
      Layout m' ds kt k owner' ∧ Grows d m m' owner owner' ∧
      (∀ x ∈ ds, ∀ v, UserPage v → pteAt m'.mem x v = pteAt m.mem x v) ∧
      (∀ j < 1024, j ≠ i → word m'.mem d j = word m.mem d j) ∧
      freeBelow 32768 m.pmm =
        freeBelow 32768 m'.pmm + if hasFlag (word m.mem d i) pagePresent then 0 else 1 := by
  obtain ⟨c, hid, hc⟩ := h.idMapped
  by_cases hp : hasFlag (word m.mem d i) pagePresent = true
  · refine ⟨m, owner, hid.uvmTable_present (h.dir_low hd) (by omega) hp, hp, h, .refl d m owner,
      fun _ _ _ _ => rfl, fun _ _ _ => rfl, ?_⟩
    rw [if_pos hp, Nat.add_zero]
  · obtain ⟨f, hlow, hf0, hfree, halloc⟩ := Machine.alloc_below (by decide) h.zero (hroom hp)
    have hnone := h.unowned hfree
    obtain ⟨mem1, htab, honly, hzero⟩ := hid.uvmTable_absent (h.dir_low hd) (by omega) hp hlow hf0
      (h.outside hc (by simp [hnone])) halloc
    obtain ⟨⟨hlay, hpte⟩, hgrow⟩ := h.grant hlow hfree honly (.tab d i) d
    have hdf : d ≠ f := by
      rintro rfl
      rw [(h.dirs d hd).1] at hnone
      cases hnone
    have hdw : ∀ j < 1024, word mem1 d j = word m.mem d j := fun j hj => word_congr hj (honly d hdf)
    obtain ⟨hlay', hwords, hpte'⟩ := hlay.link hd hlo hhi (f := f)
      (by dsimp only; rwa [hdw i (by omega)]) (by simp) hzero
    have hself := hwords d hd i (by omega)
    rw [if_pos ⟨rfl, rfl⟩] at hself
    have hother : ∀ g, g ≠ d → page (setWord mem1 d i (f * 4096 ||| 7)) g = page mem1 g :=
      fun g hg => page_setWord (by omega) hg
    refine ⟨_, _, ?_, ?_, hlay',
      ⟨⟨rfl, rfl⟩, hgrow.role, fun g v hg => ?_, hgrow.refs, fun g hg hne => ?_,
      hgrow.high⟩, fun x hx v hv => (hpte' x hx v hv).trans (hpte x hx v hv), fun j hj hne => ?_,
        ?_⟩
    · dsimp only
      rw [hself, mul_or_div (by decide)]
      exact htab
    · dsimp only
      rw [hself, hasFlag_mul_or f 7 (by decide)]
      decide
    · dsimp only
      rw [hother g (ne_of_role hg (h.dirs d hd).1 (by simp))]
      exact hgrow.data g v hg
    · exact (hother g hne).trans (hgrow.dirs g hg hne)
    · dsimp only
      rw [hwords d hd j hj, if_neg fun hc => hne hc.2, hdw j hj]
    · rw [if_neg hp]
      exact (freeBelow_grant hlow hfree).symm

/-- `uvm_map` enters a frame of the right role. -/
theorem Layout.uvmMap {d v f flags : Nat} (hd : d ∈ ds)
    (hv : UserPage v) (hf : owner f = some (.data v)) (hflags : flags < 4096)
    (huser : hasFlag flags pageUser)
    (hroom : ¬hasFlag (word m.mem d (v / 1024)) pagePresent → 0 < freeBelow 32768 m.pmm) :
    ∃ m' owner', uvmMap m (d * 4096) (v * 4096) (f * 4096) flags = some (0, m') ∧
      hasFlag (word m'.mem d (v / 1024)) pagePresent ∧
      Layout m' ds kt k owner' ∧ Grows d m m' owner owner' ∧
      (∀ x ∈ ds, ∀ u, UserPage u → pteAt m'.mem x u =
        if x = d ∧ u = v then f * 4096 ||| (flags ||| pagePresent) else pteAt m.mem x u) ∧
      (∀ j < 1024, j ≠ v / 1024 → word m'.mem d j = word m.mem d j) ∧
      freeBelow 32768 m.pmm = freeBelow 32768 m'.pmm +
        if hasFlag (word m.mem d (v / 1024)) pagePresent then 0 else 1 := by
  obtain ⟨hlo, hhi⟩ := hv.table
  obtain ⟨m₁, owner1, htab, hp, hlay, hgrow, hpte, hwords, hroom'⟩ := h.uvmTable hd hlo hhi hroom
  obtain ⟨c, hid, -⟩ := hlay.idMapped
  have hor : flags ||| pagePresent < 4096 := Nat.or_lt_two_pow (n := 12) hflags (by decide)
  have hlow := (h.owned f _ hf).1
  have hvirt : v * 4096 / 2 ^ 22 = v / 1024 := by omega
  rw [← hvirt] at htab
  have hmap := hid.uvmMap htab (by rw [hvirt]; exact hlay.table_low hd hlo hhi hp) (f * 4096) flags
  rw [hvirt, show v * 4096 / 2 ^ 12 % 1024 = v % 1024 by omega, frameAddr_mul] at hmap
  obtain ⟨hlay', hpte'⟩ := hlay.setPte hd hv hp (w := f * 4096 ||| (flags ||| pagePresent))
    (mul_or_lt (by unfold Low at hlow; omega) hor) (fun _ => by
      rw [mul_or_div hor, hasFlag_mul_or f _ (by decide), hasFlag_or, huser]
      exact ⟨hgrow.role f _ hf, rfl⟩)
  -- the table is neither a directory nor a data frame
  have hrole := (hlay.tables d hd _ hlo hhi hp).1
  generalize word m₁.mem d (v / 1024) / 4096 = t at *
  have hsame : ∀ {g r}, owner1 g = some r → r ≠ .tab d (v / 1024) →
      page (setWord m₁.mem t (v % 1024) (f * 4096 ||| (flags ||| pagePresent))) g = page m₁.mem g :=
    fun hg hne => page_setWord (by omega) (ne_of_role hg hrole hne)
  have hdir : ∀ j < 1024,
      word (setWord m₁.mem t (v % 1024) (f * 4096 ||| (flags ||| pagePresent))) d j =
        word m₁.mem d j :=
    fun j hj => word_congr hj (hsame (hlay.dirs d hd).1 (by simp))
  refine ⟨_, owner1, hmap, ?_, hlay',
    ⟨⟨hgrow.regs.cr0, hgrow.regs.cr3⟩, hgrow.role, fun g u hg => ?_, hgrow.refs,
    fun g hg hne => ?_, hgrow.high⟩, fun x hx u hu => ?_, fun j hj hne => ?_, hroom'⟩
  · dsimp only
    rw [hdir _ (by omega)]
    exact hp
  · exact (hsame (hgrow.role _ _ hg) (by simp)).trans (hgrow.data g u hg)
  · exact (hsame (hgrow.role _ _ hg) (by simp)).trans (hgrow.dirs g hg hne)
  · dsimp only
    rw [hpte' x hx u hu, hpte x hx u hu]
  · dsimp only
    rw [hdir j hj, hwords j hj hne]

/-- A frame that is written when it has just been taken is not that of a directory. -/
theorem Layout.word_onlyFrame {d f j : Nat} (hd : d ∈ ds)
    (hfree : pageIsFree m.pmm f) {mem : Bytes} (honly : OnlyFrame f m.mem mem) (hj : j < 1024) :
    word mem d j = word m.mem d j :=
  word_congr hj (honly d fun heq => by
    have hdir := (h.dirs d hd).1
    rw [heq, h.unowned hfree] at hdir
    cases hdir)

/-- `uvm_map` enters a page whose frame has just been taken and filled. -/
theorem Layout.mapFresh {d v f flags : Nat} (hd : d ∈ ds) (hv : UserPage v)
    (hlow : Low f) (hfree : pageIsFree m.pmm f) {mem : Bytes} (honly : OnlyFrame f m.mem mem)
    (hflags : flags < 4096) (huser : hasFlag flags pageUser)
    (hroom : ¬hasFlag (word m.mem d (v / 1024)) pagePresent → 1 < freeBelow 32768 m.pmm) :
    ∃ m' owner', AliOS.uvmMap { m with mem := mem, pmm := m.pmm.grant f } (d * 4096) (v * 4096)
      (f * 4096) flags =
        some (0, m') ∧
      hasFlag (word m'.mem d (v / 1024)) pagePresent ∧
      Layout m' ds kt k owner' ∧ Grows d m m' owner owner' ∧
      (owner' f = some (.data v) ∧ page m'.mem f = page mem f) ∧
      (∀ x ∈ ds, ∀ u, UserPage u → pteAt m'.mem x u =
        if x = d ∧ u = v then f * 4096 ||| (flags ||| pagePresent) else pteAt m.mem x u) ∧
      (∀ j < 1024, j ≠ v / 1024 → word m'.mem d j = word m.mem d j) ∧
      freeBelow 32768 m.pmm = freeBelow 32768 m'.pmm + 1 +
        if hasFlag (word m.mem d (v / 1024)) pagePresent then 0 else 1 := by
  obtain ⟨⟨hlay1, hpte1⟩, hgrow1⟩ := h.grant hlow hfree honly (.data v) d
  have htaken := freeBelow_grant hlow hfree
  have hword : ∀ j < 1024, word mem d j = word m.mem d j :=
    fun j hj => h.word_onlyFrame hd hfree honly hj
  have hi : v / 1024 < 1024 := by
    have := hv.table.2
    omega
  obtain ⟨m', owner', hmap, hpres, hlay', hgrow', hpte', hwords, hcount⟩ :=
    @Layout.uvmMap _ ds kt k _ hlay1 d v f flags hd hv (update_self ..) hflags huser fun habs => by
      dsimp only at habs ⊢
      rw [hword _ hi] at habs
      have := hroom habs
      omega
  dsimp only at hwords hcount hpte'
  rw [hword _ hi] at hcount
  refine ⟨m', owner', hmap, hpres, hlay', hgrow1.trans hgrow', ⟨hgrow'.role f _ (update_self ..),
    hgrow'.data f v (update_self ..)⟩, fun x hx u hu => ?_, fun j hj hne => ?_, by omega⟩
  · rw [hpte' x hx u hu, hpte1 x hx u hu]
  · rw [hwords j hj hne, hword j hj]

/-! ## sharing one page -/

/-- The parent's half of an iteration of `uvm_clone`: a writable entry becomes
copy-on-write, and the child's flags are those of the new entry. -/
theorem Layout.downgrade {s v : Nat} (hs : s ∈ ds) (hv : UserPage v)
    (hdir : hasFlag (word m.mem s (v / 1024)) pagePresent)
    (hp : hasFlag (pteAt m.mem s v) pagePresent) :
    ∃ mem' flags,
      (if hasFlag (pteAt m.mem s v &&& (pageWrite ||| pageUser ||| pageCow)) pageWrite then
        (kstore32 m (word m.mem s (v / 1024) / 4096 * 4096 + 4 * (v % 1024))
          (frameAddr (pteAt m.mem s v) ||| pagePresent ||| pageUser ||| pageCow)).map fun m =>
            (pageUser ||| pageCow, m)
      else some (pteAt m.mem s v &&& (pageWrite ||| pageUser ||| pageCow), m)) =
        some (flags, { m with mem := mem' }) ∧
      Layout { m with mem := mem' } ds kt k owner ∧
      flags < 4096 ∧ hasFlag flags pageUser ∧
      modeOf (flags ||| pagePresent) = (modeOf (pteAt m.mem s v)).downgrade ∧
      (∀ x ∈ ds, ∀ u, UserPage u → entryOf (pteAt mem' x u) =
        if x = s ∧ u = v then some ⟨pteAt m.mem s v / 4096, (modeOf (pteAt m.mem s v)).downgrade⟩
        else entryOf (pteAt m.mem x u)) ∧
      ∀ g r, owner g = some r → r ≠ .tab s (v / 1024) → page mem' g = page m.mem g := by
  obtain ⟨hlo, hhi⟩ := hv.table
  obtain ⟨hrole, huser⟩ := h.pages s hs v hv hp
  have hwrite : hasFlag (pteAt m.mem s v &&& (pageWrite ||| pageUser ||| pageCow)) pageWrite =
      hasFlag (pteAt m.mem s v) pageWrite := hasFlag_and _ (by decide)
  rw [hwrite]
  by_cases hw : hasFlag (pteAt m.mem s v) pageWrite = true
  · obtain ⟨c, hid, -⟩ := h.idMapped
    have hflow := (h.owned _ _ hrole).1
    have hentry : frameAddr (pteAt m.mem s v) ||| pagePresent ||| pageUser ||| pageCow =
        pteAt m.mem s v / 4096 * 4096 ||| 0x205 := by
      rw [frameAddr_eq, Nat.or_assoc, Nat.or_assoc]; rfl
    have hmode : modeOf (pteAt m.mem s v) = .writable := by
      unfold modeOf
      rw [if_pos hw]
    rw [if_pos hw, hid.kstore32 (h.table_low hs hlo hhi hdir) (by omega), hentry]
    obtain ⟨hlay, hpte⟩ := h.setPte hs hv hdir (w := pteAt m.mem s v / 4096 * 4096 ||| 0x205)
      (mul_or_lt (by unfold Low at hflow; omega) (by decide)) (fun _ => by
        rw [mul_or_div (by decide), hasFlag_mul_or _ _ (by decide)]
        exact ⟨hrole, by decide⟩)
    refine ⟨_, pageUser ||| pageCow, rfl, hlay, by decide, by decide, by rw [hmode]; decide,
      fun x hx u hu => ?_, fun g r hg hne => ?_⟩
    · rw [hpte x hx u hu]
      by_cases hc : x = s ∧ u = v
      · rw [if_pos hc, if_pos hc, entryOf_mul_or (by decide) (by decide), hmode]
        rfl
      · rw [if_neg hc, if_neg hc]
    · exact page_setWord (by omega)
        (ne_of_role hg (h.tables s hs _ hlo hhi hdir).1 hne)
  · have hmask : pteAt m.mem s v &&& (pageWrite ||| pageUser ||| pageCow) < 4096 :=
      Nat.lt_of_le_of_lt Nat.and_le_right (by decide)
    have hdown : (modeOf (pteAt m.mem s v)).downgrade = modeOf (pteAt m.mem s v) := by
      unfold modeOf
      rw [if_neg hw]
      split <;> rfl
    rw [if_neg hw]
    refine ⟨m.mem, _, rfl, h, hmask, ?_, ?_, fun x _ u _ => ?_, fun _ _ _ _ => rfl⟩
    · rw [hasFlag_and _ (by decide), huser]
    · rw [hdown]
      unfold modeOf
      rw [hasFlag_or, hasFlag_or, hasFlag_and _ (by decide), hasFlag_and _ (by decide)]
      simp [hasFlag, pagePresent, pageWrite, pageCow]
    · by_cases hc : x = s ∧ u = v
      · rw [if_pos hc, hc.1, hc.2, hdown]
        unfold entryOf
        rw [if_pos hp]
      · rw [if_neg hc]

end

theorem pageIsFree_pmmAddref (s : Pmm) (addr p : Nat) :
    pageIsFree (pmmAddref s addr) p = pageIsFree s p := by
  obtain ⟨-, -, heq⟩ | ⟨-, heq⟩ := pmmAddref_cases s addr
  · rw [heq, pageIsFree_setRefs]
  · rw [heq]

theorem freeBelow_pmmAddref (n : Nat) (s : Pmm) (addr : Nat) :
    freeBelow n (pmmAddref s addr) = freeBelow n s := by
  unfold freeBelow
  simp only [pageIsFree_pmmAddref]

/-- The references of a frame that an entry points to. -/
theorem pmmGetref_frameAddr (s : Pmm) {w : Nat} (hlow : Low (w / 4096)) :
    pmmGetref s (frameAddr w) = s.pageRefs (w / 4096) := by
  have hw : frameAddr w / pageSize = w / 4096 := mul_pageSize_div _
  unfold pmmGetref
  rw [hw, if_pos (by unfold Low at hlow; unfold pagesMax; omega)]

/-- A shared frame loses one of its references. -/
theorem pmmFree_frameAddr {s : Pmm} {w : Nat} (hlow : Low (w / 4096))
    (hused : pageIsFree s (w / 4096) = false) (hmany : 1 < s.pageRefs (w / 4096)) :
    pmmFree s (frameAddr w) = s.setRefs (w / 4096) (s.pageRefs (w / 4096) - 1) := by
  have hw : frameAddr w / pageSize = w / 4096 := mul_pageSize_div _
  have hcases := pmmFree_cases s (frameAddr w)
  rw [hw] at hcases
  obtain ⟨hbig | hfree, -⟩ | ⟨-, -, ⟨-, heq⟩ | ⟨hone, -⟩⟩ := hcases
  · unfold Low at hlow
    unfold pagesMax at hbig
    omega
  · simp [hused] at hfree
  · exact heq
  · omega

/-- An entry that is not present is skipped. -/
theorem Layout.cloneEntry_skip (h : Layout m ds kt k owner) {s t v : Nat} (hs : s ∈ ds)
    (hv : UserPage v) (hdir : hasFlag (word m.mem s (v / 1024)) pagePresent)
    (hp : ¬hasFlag (pteAt m.mem s v) pagePresent) :
    uvmCloneEntry (t * 4096) (v / 1024) (word m.mem s (v / 1024) / 4096 * 4096)
      (v % 1024) (false, m) =
      some (false, m) := by
  obtain ⟨c, hid, -⟩ := h.idMapped
  have hpte : pteAt m.mem s v = word m.mem (word m.mem s (v / 1024) / 4096) (v % 1024) := by
    unfold pteAt
    rw [if_pos hdir]
  rw [hpte] at hp
  unfold uvmCloneEntry
  simp only [Bool.false_eq_true, if_false]
  rw [hid.kload32 (h.table_low hs hv.table.1 hv.table.2 hdir) (by omega),
    bind_some, if_neg hp]

/-- The start of an iteration: the entry is downgraded, its frame counted once more, and what is
left is `uvm_map` into the new space. -/
theorem Layout.cloneEntry_eq (h : Layout m ds kt k owner) {s v : Nat} (hs : s ∈ ds)
    (hv : UserPage v) (hdir : hasFlag (word m.mem s (v / 1024)) pagePresent)
    (hp : hasFlag (pteAt m.mem s v) pagePresent) (t : Nat) :
    ∃ mem' flags,
      uvmCloneEntry (t * 4096) (v / 1024) (word m.mem s (v / 1024) / 4096 * 4096)
        (v % 1024) (false, m) =
        (AliOS.uvmMap { m with mem := mem', pmm := pmmAddref m.pmm (pteAt m.mem s v / 4096 * 4096) }
          (t * 4096)
          (v * 4096) (pteAt m.mem s v / 4096 * 4096) flags).map (fun r => (decide (r.1 < 0), r.2)) ∧
      Layout { m with mem := mem', pmm := pmmAddref m.pmm (pteAt m.mem s v / 4096 * 4096) }
        ds kt k owner ∧
      flags < 4096 ∧ hasFlag flags pageUser ∧
      modeOf (flags ||| pagePresent) = (modeOf (pteAt m.mem s v)).downgrade ∧
      (∀ x ∈ ds, ∀ u, UserPage u → entryOf (pteAt mem' x u) =
        if x = s ∧ u = v then some ⟨pteAt m.mem s v / 4096, (modeOf (pteAt m.mem s v)).downgrade⟩
        else entryOf (pteAt m.mem x u)) ∧
      ∀ g r, owner g = some r → r ≠ .tab s (v / 1024) → page mem' g = page m.mem g := by
  obtain ⟨hlo, hhi⟩ := hv.table
  obtain ⟨c, hid, -⟩ := h.idMapped
  obtain ⟨mem1, flags, hif, hlay1, hflags, huser, hmode, hent, hpages⟩ := h.downgrade hs hv hdir hp
  have hpteAt : word m.mem (word m.mem s (v / 1024) / 4096) (v % 1024) = pteAt m.mem s v := by
    unfold pteAt
    rw [if_pos hdir]
  have hvirt : (v / 1024) <<< 22 ||| (v % 1024) <<< 12 = v * 4096 := by
    rw [shl_or_shl _ (by omega), Nat.div_add_mod]
  refine ⟨mem1, flags, ?_, hlay1.withPmm fun _ hf => (pageIsFree_pmmAddref _ _ _).trans hf, hflags,
    huser, hmode, hent, hpages⟩
  unfold uvmCloneEntry
  simp only [Bool.false_eq_true, if_false]
  rw [hid.kload32 (h.table_low hs hlo hhi hdir) (by omega), bind_some, hpteAt,
    if_pos hp, hif, bind_some, hvirt, frameAddr_eq]

/-- One iteration of `uvm_clone`: the page is in both spaces, and nothing else changes. -/
theorem Layout.shareEntry (h : Layout m ds kt k owner) {s t v : Nat} (hs : s ∈ ds)
    (ht : t ∈ ds) (hst : s ≠ t)
    (hv : UserPage v) (hdir : hasFlag (word m.mem s (v / 1024)) pagePresent)
    (hp : hasFlag (pteAt m.mem s v) pagePresent)
    (hroom : ¬hasFlag (word m.mem t (v / 1024)) pagePresent → 0 < freeBelow 32768 m.pmm) :
    ∃ m' owner', uvmCloneEntry (t * 4096) (v / 1024) (word m.mem s (v / 1024) / 4096 * 4096)
      (v % 1024)
        (false, m) = some (false, m') ∧
      Layout m' ds kt k owner' ∧
      Grows t { m with pmm := pmmAddref m.pmm (pteAt m.mem s v / 4096 * 4096) } m' owner owner' ∧
      (m'.pmm = pmmAddref m.pmm (pteAt m.mem s v / 4096 * 4096) ∨
        m'.pmm = (pmmAlloc (pmmAddref m.pmm (pteAt m.mem s v / 4096 * 4096))).2) ∧
      (∀ x ∈ ds, ∀ u, UserPage u → entryOf (pteAt m'.mem x u) =
        if (x = s ∨ x = t) ∧ u = v then
          some ⟨pteAt m.mem s v / 4096, (modeOf (pteAt m.mem s v)).downgrade⟩
        else entryOf (pteAt m.mem x u)) ∧
      page m'.mem s = page m.mem s ∧
      (∀ j < 1024, j ≠ v / 1024 → word m'.mem t j = word m.mem t j) ∧
      freeBelow 32768 m.pmm = freeBelow 32768 m'.pmm +
        if hasFlag (word m.mem t (v / 1024)) pagePresent then 0 else 1 := by
  obtain ⟨hrole, -⟩ := h.pages s hs v hv hp
  obtain ⟨mem1, flags, hrun, hlay1, hflags, huser, hmode, hent, hpages⟩ :=
    h.cloneEntry_eq hs hv hdir hp t
  have hi : v / 1024 < 1024 := by
    have := hv.table.2
    omega
  have htword : ∀ j < 1024, word mem1 t j = word m.mem t j := fun j hj =>
    word_congr hj (hpages t _ (h.dirs t ht).1 (by simp))
  obtain ⟨m', owner', hmap, -, hlay', hgrow, hpte, hwords, hcount⟩ :=
    hlay1.uvmMap ht hv hrole hflags huser (by dsimp only; rwa [htword _ hi, freeBelow_pmmAddref])
  have hkeep : ∀ g r, owner g = some r → r ≠ .tab s (v / 1024) → page m'.mem g = page mem1 g →
      page m'.mem g = page m.mem g := fun g r hg hne heq => heq.trans (hpages g r hg hne)
  refine ⟨m', owner', ?_, hlay', ⟨⟨hgrow.regs.cr0, hgrow.regs.cr3⟩, hgrow.role,
    fun g u hg => hkeep g _ hg (by simp) (hgrow.data g u hg), hgrow.refs,
    fun g hg hne => hkeep g _ hg (by simp) (hgrow.dirs g hg hne), hgrow.high⟩, uvmMap_pmm hmap,
    fun x hx u hu => ?_, hkeep s _ (h.dirs s hs).1 (by simp) (hgrow.dirs s (h.dirs s hs).1 hst),
    fun j hj hne => ?_, ?_⟩
  · rw [hrun, hmap]
    rfl
  · -- the child's entry, the parent's, all others
    rw [hpte x hx u hu]
    by_cases hxt : x = t ∧ u = v
    · have hor : flags ||| pagePresent < 4096 := Nat.or_lt_two_pow (n := 12) hflags (by decide)
      rw [if_pos hxt, if_pos ⟨.inr hxt.1, hxt.2⟩,
        entryOf_mul_or hor (by rw [hasFlag_or]; simp [hasFlag, pagePresent]), hmode]
    · rw [if_neg hxt, hent x hx u hu]
      by_cases hxs : x = s ∧ u = v
      · rw [if_pos hxs, if_pos ⟨.inl hxs.1, hxs.2⟩]
      · rw [if_neg hxs, if_neg]
        rintro ⟨hx' | hx', huv⟩
        · exact hxs ⟨hx', huv⟩
        · exact hxt ⟨hx', huv⟩
  · rw [hwords j hj hne, htword j hj]
  · rw [htword _ hi, freeBelow_pmmAddref] at hcount
    exact hcount

end Steps

end AliOS
