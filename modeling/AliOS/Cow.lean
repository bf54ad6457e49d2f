import AliOS.Fault.Beyond

/-!
# AliOS.Cow

Copy-on-write refines eager copying.  A run starts from one address space with
private pages and goes on with task switches, forks and user-mode writes.  Next
to it runs the system that copies every page at the fork (`eagerClone`,
`eagerWrite`); as long as the frames handed out on the way lie below 128 MB,
every space reads the same bytes in both.

The last part shows what happens beyond that limit.
-/

namespace AliOS

open Lib Finset

/-- What the spaces see: per page the right to write and the content. -/
abbrev Views := Nat → Nat → Option (Bool × (Fin 4096 → UInt8))

/-- The byte a space reads at an address. -/
def Views.read (V : Views) (d a : Nat) : Option UInt8 :=
  (V d (a / 4096)).map fun p => p.2 (pageOffset a)

/-- The steps of a run that need frames: a fork of the space `s`, and a write of
`b` to the address `a` by the current task. -/
inductive CowCall where
  | clone (s : Nat)
  | write (a : Nat) (b : UInt8)

/-- The states reached from `m₀`, where `d₀` is the only address space, by steps
that satisfy `ok`, with the views of the eager system.  A write that is refused
changes nothing. -/
inductive CowRun (ok : Machine → Finset Nat → CowCall → Prop) (m₀ : Machine) (d₀ : Nat) :
    Machine → Finset Nat → Views → Prop where
  | start : CowRun ok m₀ d₀ m₀ {d₀} (toStore m₀ {d₀}).view
  | switch {m : Machine} {ds : Finset Nat} {V : Views} {d : Nat} :
      CowRun ok m₀ d₀ m ds V → d ∈ ds → CowRun ok m₀ d₀ { m with cr3 := d * 4096 } ds V
  | clone {m m' : Machine} {ds : Finset Nat} {V : Views} {s pd : Nat} :
      CowRun ok m₀ d₀ m ds V → s ∈ ds → ok m ds (.clone s) →
      uvmClone m (s * 4096) = some (pd, m') → pd ≠ 0 →
      CowRun ok m₀ d₀ m' (insert (pd / 4096) ds) (eagerClone V s (pd / 4096))
  | write {m : Machine} {ds : Finset Nat} {V : Views} {a : Nat} {b : UInt8} :
      CowRun ok m₀ d₀ m ds V → UserPage (a / 4096) → ok m ds (.write a b) →
      CowRun ok m₀ d₀ ((userWrite m a b).getD m) ds
        (eagerWrite V (m.cr3 / 4096) (a / 4096) (writeByte a b))

/-- No frame gets more than 255 sharers, and no copy fails for lack of memory. -/
def Shareable (m : Machine) (ds : Finset Nat) : CowCall → Prop
  | .clone s => ∀ v e, (toStore m ds).entry s v = some e →
      ((toStore m ds).sharers v e.frame).card < 255
  | .write a _ => needsCopy m (m.cr3 / 4096) (a / 4096) = true → (pmmAlloc m.pmm).1 ≠ 0

/-- The step finds its frames below 128 MB: a fork needs one for the directory
and one per used table, a write one if it has to copy. -/
def LowFrames (m : Machine) (ds : Finset Nat) (c : CowCall) : Prop :=
  Shareable m ds c ∧
    match c with
    | .clone s => tablesUsed m.mem s 32 736 + 1 ≤ freeBelow 32768 m.pmm
    | .write a _ => needsCopy m (m.cr3 / 4096) (a / 4096) = true → 0 < freeBelow 32768 m.pmm

/-- The start of a run: the current address space `d` is the only one, its page
tables and pages lie below 128 MB in frames of their own, and each page is
counted once. -/
structure PrivateSpace (m : Machine) (d : Nat) (kt : Nat → Nat) (k : Nat) : Prop where
  layout : ∃ owner, Layout m {d} kt k owner
  current : m.cr3 = d * 4096
  single : ∀ v e, (toStore m {d}).entry d v = some e → m.pmm.pageRefs e.frame = 1

section Run

variable {m₀ m : Machine} {d₀ : Nat} {ds : Finset Nat} {V : Views} {kt : Nat → Nat} {k : Nat}

/-- The invariant of a run. -/
structure Refines (m : Machine) (ds : Finset Nat) (V : Views) (kt : Nat → Nat)
    (k : Nat) : Prop where
  layout : ∃ owner, Layout m ds kt k owner
  ok : (toStore m ds).Ok
  current : ∃ c ∈ ds, m.cr3 = c * 4096
  view : ∀ d ∈ ds, ∀ v, (toStore m ds).view d v = V d v

theorem PrivateSpace.refines (h : PrivateSpace m₀ d₀ kt k) :
    Refines m₀ {d₀} (toStore m₀ {d₀}).view kt k := by
  obtain ⟨owner, hlay⟩ := h.layout
  refine ⟨⟨owner, hlay⟩, ⟨fun x hx y hy a b e e' he he' hf => ?_, fun x hx a e he => ?_,
    fun x hx a e _ _ y hy _ => ?_⟩, ⟨d₀, mem_singleton_self _, h.current⟩, fun _ _ _ => rfl⟩
  · have hrole := hlay.role_of_entry hx he
    rw [hf, hlay.role_of_entry hy he', Option.some.injEq, Role.data.injEq] at hrole
    exact hrole.symm
  · obtain rfl := mem_singleton.mp hx
    have hsharers : (toStore m₀ {x}).sharers a e.frame = {x} := by
      ext y
      rw [Store.mem_sharers, mem_singleton]
      constructor
      · exact fun hy => mem_singleton.mp hy.1
      · rintro rfl
        exact ⟨hx, Store.maps_of_entry he⟩
    rw [hsharers, card_singleton]
    exact h.single a e he
  · rw [mem_singleton.mp hx, mem_singleton.mp hy]

theorem Refines.switch (h : Refines m ds V kt k) {d : Nat} (hd : d ∈ ds) :
    Refines { m with cr3 := d * 4096 } ds V kt k := by
  obtain ⟨owner, hlay⟩ := h.layout
  exact ⟨⟨owner, hlay.switch hd⟩, h.ok, ⟨d, hd, rfl⟩, h.view⟩

theorem Refines.clone (h : Refines m ds V kt k) {s : Nat} (hs : s ∈ ds)
    (hlow : LowFrames m ds (.clone s)) :
    ∃ t m', uvmClone m (s * 4096) = some (t * 4096, m') ∧ m'.cr0 = m.cr0 ∧
      Refines m' (insert t ds) (eagerClone V s t) kt k := by
  obtain ⟨owner, hlay⟩ := h.layout
  obtain ⟨hshare, hroom⟩ := hlow
  have hrefs : ∀ v e, (toStore m ds).entry s v = some e → m.pmm.pageRefs e.frame < 255 := by
    intro v e he
    have hcard : m.pmm.pageRefs e.frame = ((toStore m ds).sharers v e.frame).card :=
      h.ok.refs s hs v e he
    rw [hcard]
    exact hshare v e he
  obtain ⟨t, m', owner', hrun, -, -, hlay', hok', hcloned⟩ := hlay.uvmClone h.ok hs hrefs hroom
  obtain ⟨c, hc, hcr3⟩ := h.current
  refine ⟨t, m', hrun, hcloned.regs.cr0, ⟨owner', hlay'⟩, hok',
    ⟨c, mem_insert_of_mem hc, hcloned.regs.cr3.trans hcr3⟩, fun d hd v => ?_⟩
  rw [hcloned.view hs hd v]
  unfold eagerClone
  by_cases hdt : d = t
  · rw [if_pos hdt, if_pos hdt, h.view s hs v]
  · rw [if_neg hdt, if_neg hdt, h.view d (mem_of_mem_insert_of_ne hd hdt) v]

theorem Refines.write (h : Refines m ds V kt k) {a : Nat} (ha : UserPage (a / 4096)) {b : UInt8}
    (hlow : LowFrames m ds (.write a b)) :
    ((userWrite m a b).getD m).cr0 = m.cr0 ∧ Refines ((userWrite m a b).getD m) ds
      (eagerWrite V (m.cr3 / 4096) (a / 4096) (writeByte a b)) kt k := by
  obtain ⟨owner, hlay⟩ := h.layout
  obtain ⟨c, hc, hcr3⟩ := h.current
  have hdiv : m.cr3 / 4096 = c := by omega
  have hroom : needsCopy m (m.cr3 / 4096) (a / 4096) = true → 0 < freeBelow 32768 m.pmm := hlow.2
  rw [hdiv] at hroom ⊢
  obtain ⟨owner', hlay', hregs, hok', hview⟩ := hlay.userWrite h.ok hc hcr3 ha hroom b
  refine ⟨hregs.cr0, ⟨owner', hlay'⟩, hok', ⟨c, hc, hregs.cr3.trans hcr3⟩, fun d hd v => ?_⟩
  rw [hview d hd v]
  exact eagerWrite_congr (h.view c hc) (h.view d hd) _ _ v

theorem CowRun.refines (h0 : PrivateSpace m₀ d₀ kt k) (hrun : CowRun LowFrames m₀ d₀ m ds V) :
    m.cr0 = m₀.cr0 ∧ Refines m ds V kt k := by
  induction hrun with
  | start => exact ⟨rfl, h0.refines⟩
  | switch _ hd ih => exact ⟨ih.1, ih.2.switch hd⟩
  | clone _ hs hok hclone _ ih =>
    obtain ⟨t, m', hrun, hcr0, href⟩ := ih.2.clone hs hok
    rw [hrun] at hclone
    cases hclone
    rw [Nat.mul_div_cancel t (by decide)]
    exact ⟨hcr0.trans ih.1, href⟩
  | write _ ha hok ih =>
    obtain ⟨hcr0, href⟩ := ih.2.write ha hok
    exact ⟨hcr0.trans ih.1, href⟩

/-- What a fork adds to a run. -/
theorem CowRun.fork {ok : Machine → Finset Nat → CowCall → Prop} {m' : Machine} {s t : Nat}
    (h : CowRun ok m₀ d₀ m ds V) (hs : s ∈ ds) (hok : ok m ds (.clone s))
    (hrun : uvmClone m (s * 4096) = some (t * 4096, m')) (ht : t ≠ 0) :
    CowRun ok m₀ d₀ m' (insert t ds) (eagerClone V s t) := by
  have hnext := h.clone hs hok hrun (by omega)
  rwa [Nat.mul_div_cancel t (by decide)] at hnext

/-- A user-mode read returns a byte of the view. -/
theorem Layout.userRead {owner : Nat → Option Role} (h : Layout m ds kt k owner) {d a : Nat}
    (hd : d ∈ ds) (ha : UserPage (a / 4096)) :
    userRead m.mem (d * 4096) a = Views.read (toStore m ds).view d a := by
  rw [h.userRead_eq hd ha]
  unfold Views.read Store.view
  by_cases hp : hasFlag (pteAt m.mem d (a / 4096)) pagePresent = true
  · have he : (toStore m ds).entry d (a / 4096) = some ⟨_, _⟩ := entry_toStore.mpr ⟨ha, hp, rfl⟩
    rw [if_pos hp, he]
    rfl
  · rw [if_neg hp, entry_toStore_eq_none.mpr fun _ => hp]
    rfl

end Run

/-! ## two pages on a concrete machine -/

/-- Entry `j` of `page_dir`: the tables of the two maps in frames 256 to 319. -/
def pairDirEntry (j : Nat) : Nat :=
  if j < 32 then (256 + j) * 4096 ||| 3
  else if 768 ≤ j ∧ j < 800 then (288 + (j - 768)) * 4096 ||| 3
  else 0

/-- Word `j` of frame `f`: `page_dir` in frame 16, its tables, and a process
with its directory in frame 320, one page table and the pages `0x08000000` and
`0x08001000`, filled with `A` and `B`. -/
def pairWord (f j : Nat) : Nat :=
  if f = 16 then pairDirEntry j
  else if 256 ≤ f ∧ f < 320 then (1024 * ((f - 256) % 32) + j) * 4096 ||| 3
  else if f = 320 then if j = 32 then 321 * 4096 ||| 7 else pairDirEntry j
  else if f = 321 then
    if j = 0 then 322 * 4096 ||| 7 else if j = 1 then 323 * 4096 ||| 7 else 0
  else if f = 322 then 0x41414141
  else if f = 323 then 0x42424242
  else 0

/-- The process runs, and the frames 400, 401 and `top` are the last free ones. -/
def pairMachine (top : Nat) : Machine where
  mem := ofWords pairWord
  pmm := ((((Pmm.bss.allUsed.setRefs 322 1).setRefs 323 1).release 400).release 401).release top
  cr0 := 0x80000011
  cr3 := 320 * 4096
  pageDir := 16 * 4096

section Pair

variable {top : Nat}

theorem pairDirEntry_lt (j : Nat) : pairDirEntry j < 2 ^ 32 := by
  unfold pairDirEntry
  split_ifs
  · exact mul_or_lt (by omega) (by decide)
  · exact mul_or_lt (by omega) (by decide)
  · decide

theorem word_pairMachine {f j : Nat} (hj : j < 1024) :
    word (pairMachine top).mem f j = pairWord f j := by
  refine word_ofWords hj ?_
  unfold pairWord
  split_ifs
  · exact pairDirEntry_lt j
  · exact mul_or_lt (by omega) (by decide)
  · decide
  · exact pairDirEntry_lt j
  all_goals decide

theorem pageIsFree_pairMachine (p : Nat) :
    pageIsFree (pairMachine top).pmm p = decide (p = 400 ∨ p = 401 ∨ p = top) := by
  unfold pairMachine
  simp [pageIsFree_allUsed, Bool.or_assoc]

theorem pageRefs_pairMachine (htop : 401 < top) {p : Nat} (hp : p = 322 ∨ p = 323) :
    (pairMachine top).pmm.pageRefs p = 1 := by
  unfold pairMachine
  obtain rfl | rfl := hp
  · simp; omega
  · simp; omega

theorem idTables_pairMachine : IdTables (pairMachine top).mem (256 + ·) := by
  intro i hi j hj
  unfold identityTables at hi
  rw [word_pairMachine hj]
  unfold pairWord
  dsimp only
  rw [if_neg (by omega), if_pos (by omega), show (256 + i - 256) % 32 = i by omega]
  exact points_mul_or (by decide) (by decide) (by decide)

theorem points_pairDirEntry {i : Nat} (hi : i < identityTables) :
    Points (pairDirEntry i) (256 + i) := by
  unfold pairDirEntry
  rw [if_pos (show i < 32 from hi)]
  exact points_mul_or (by decide) (by decide) (by decide)

theorem idDir_pairMachine {d : Nat} (hd : d = 16 ∨ d = 320) :
    IdDir (pairMachine top).mem (256 + ·) d := by
  intro i hi
  have hpts := points_pairDirEntry hi
  unfold identityTables at hi
  rw [word_pairMachine (by omega)]
  unfold pairWord
  obtain rfl | rfl := hd
  · rwa [if_pos rfl]
  · rwa [if_neg (by decide), if_neg (by decide), if_pos rfl, if_neg (by omega)]

/-- The directory entries of user space. -/
theorem word_pairMachine_dir {i : Nat} (hlo : 32 ≤ i) (hhi : i < 768) :
    word (pairMachine top).mem 320 i = if i = 32 then 321 * 4096 ||| 7 else 0 := by
  rw [word_pairMachine (by omega)]
  unfold pairWord
  rw [if_neg (by decide), if_neg (by decide), if_pos rfl]
  by_cases h32 : i = 32
  · rw [if_pos h32, if_pos h32]
  · unfold pairDirEntry
    rw [if_neg h32, if_neg h32, if_neg (by omega), if_neg (by omega)]

theorem pteAt_pairMachine {v : Nat} (hv : UserPage v) : pteAt (pairMachine top).mem 320 v =
    if v = 32768 then 322 * 4096 ||| 7 else if v = 32769 then 323 * 4096 ||| 7 else 0 := by
  obtain ⟨hlo, hhi⟩ := hv.table
  unfold pteAt
  rw [word_pairMachine_dir hlo hhi]
  by_cases h32 : v / 1024 = 32
  · rw [if_pos h32, if_pos (by decide), mul_or_div (by decide), word_pairMachine (by omega)]
    unfold pairWord
    rw [if_neg (by decide), if_neg (by decide), if_neg (by decide), if_pos rfl]
    by_cases h0 : v = 32768
    · rw [if_pos h0, if_pos (by omega)]
    · rw [if_neg h0, if_neg (by omega)]
      by_cases h1 : v = 32769
      · rw [if_pos h1, if_pos (by omega)]
      · rw [if_neg h1, if_neg (by omega)]
  · rw [if_neg h32, if_neg (by decide), if_neg (by omega), if_neg (by omega)]

/-- The entry of a page of the process. -/
theorem entry_pairMachine (v : Nat) : (toStore (pairMachine top) {320}).entry 320 v =
    if v = 32768 then some ⟨322, .writable⟩ else if v = 32769 then some ⟨323, .writable⟩
      else none := by
  have hentry : ∀ f, entryOf (f * 4096 ||| 7) = some ⟨f, .writable⟩ := fun f =>
    entryOf_mul_or (by decide) (by decide)
  dsimp only [toStore]
  by_cases hv : UserPage v
  · rw [if_pos hv, pteAt_pairMachine hv]
    split_ifs
    · exact hentry 322
    · exact hentry 323
    · rfl
  · rw [if_neg hv]
    unfold UserPage at hv
    rw [if_neg (by omega), if_neg (by omega)]

theorem privateSpace_pairMachine (htop : 401 < top) :
    PrivateSpace (pairMachine top) 320 (256 + ·) 16 := by
  refine ⟨⟨fun f => if f = 16 ∨ 256 ≤ f ∧ f < 288 then some .kernel else if f = 320 then some .dir
    else if f = 321 then some (.tab 320 32) else if f = 322 then some (.data 32768)
    else if f = 323 then some (.data 32769) else none, ?_⟩, rfl, fun v e he => ?_⟩
  · refine ⟨fun f r hf => ?_, ?_, rfl, ⟨by simp, fun i hi => ?_⟩, idTables_pairMachine,
      idDir_pairMachine (.inl rfl), fun d hd => ?_, fun d hd i hlo hhi hp => ?_,
      fun d hd v hv hp => ?_,
      ⟨320, rfl, .inr (by simp)⟩⟩
    · have hlt : f < 324 := by
        by_contra hge
        rw [if_neg (by omega), if_neg (by omega), if_neg (by omega), if_neg (by omega),
          if_neg (by omega)] at hf
        cases hf
      refine ⟨by unfold Low; omega, ?_⟩
      rw [pageIsFree_pairMachine]
      simp
      omega
    · rw [pageIsFree_pairMachine]
      simp
      omega
    · unfold identityTables at hi
      rw [if_pos (by omega)]
    · rw [mem_singleton.mp hd]
      exact ⟨rfl, idDir_pairMachine (.inr rfl)⟩
    · rw [mem_singleton.mp hd] at hp ⊢
      rw [word_pairMachine_dir hlo hhi] at hp ⊢
      by_cases h32 : i = 32
      · subst h32
        decide
      · rw [if_neg h32] at hp
        exact absurd hp (by decide)
    · rw [mem_singleton.mp hd] at hp ⊢
      rw [pteAt_pairMachine hv] at hp ⊢
      by_cases h0 : v = 32768
      · subst h0
        decide
      · by_cases h1 : v = 32769
        · subst h1
          decide
        · rw [if_neg h0, if_neg h1] at hp
          exact absurd hp (by decide)
  · rw [entry_pairMachine] at he
    split_ifs at he
    · cases he
      exact pageRefs_pairMachine htop (.inl rfl)
    · cases he
      exact pageRefs_pairMachine htop (.inr rfl)

theorem tablesUsed_pairMachine : tablesUsed (pairMachine top).mem 320 32 736 = 1 := by
  have hpte : ∀ v, 32 ≤ v / 1024 → v / 1024 < 768 →
      (hasFlag (pteAt (pairMachine top).mem 320 v) pagePresent = true ↔ v = 32768 ∨ v = 32769) := by
    intro v hlo hhi
    rw [pteAt_pairMachine (by unfold UserPage; omega)]
    by_cases h0 : v = 32768
    · simp [h0, hasFlag, pagePresent]
    · by_cases h1 : v = 32769
      · simp [h1, hasFlag, pagePresent]
      · simp [h0, h1, hasFlag]
  have hrest : tablesUsed (pairMachine top).mem 320 33 735 = 0 := by
    refine List.countP_eq_zero.mpr fun i hi hused => ?_
    rw [List.mem_range'_1] at hi
    obtain ⟨v, hv, hp⟩ := tableUsed_iff.mp hused
    rw [hpte v (by omega) (by omega)] at hp
    omega
  rw [tablesUsed, List.range'_succ, List.countP_cons, ← tablesUsed, hrest, if_pos]
  exact tableUsed_iff.mpr ⟨32768, by decide, (hpte _ (by decide) (by decide)).mpr (.inl rfl)⟩

theorem freeBelow_pairMachine : freeBelow 32768 (pairMachine 32768).pmm = 2 := by
  have hset : ((Finset.range 32768).filter fun p => pageIsFree (pairMachine 32768).pmm p = true) =
      {400, 401} := by
    ext p
    simp only [pageIsFree_pairMachine, mem_filter, mem_range, decide_eq_true_eq,
      mem_insert, mem_singleton]
    omega
  unfold freeBelow
  rw [hset]
  rfl

/-- The fork of the process shares both pages. -/
theorem uvmClone_pairMachine (htop : 401 < top) :
    ∃ t m' owner, uvmClone (pairMachine top) (320 * 4096) = some (t * 4096, m') ∧ t ≠ 0 ∧ t ≠ 320 ∧
      Layout m' (insert t {320}) (256 + ·) 16 owner ∧ Cloned (pairMachine top) m' {320} 320 t := by
  have hpriv := privateSpace_pairMachine htop
  obtain ⟨owner, hlay⟩ := hpriv.layout
  have hroom : 402 - 400 ≤ freeBelow 32768 (pairMachine top).pmm :=
    sub_le_freeBelow (by decide) fun p hlo hhi => by
      rw [pageIsFree_pairMachine, decide_eq_true_eq]
      omega
  obtain ⟨t, m', owner', hrun, ht0, ht, hlay', -, hcloned⟩ := hlay.uvmClone hpriv.refines.ok
    (mem_singleton_self 320) (fun v e he => by rw [hpriv.single v e he]; decide)
    (by rw [tablesUsed_pairMachine]; exact hroom)
  exact ⟨t, m', owner', hrun, ht0, by simpa using ht, hlay', hcloned⟩

theorem shareable_pairMachine : Shareable (pairMachine top) {320} (.clone 320) := by
  intro v e _
  have hle : ((toStore (pairMachine top) {320}).sharers v e.frame).card ≤ 1 :=
    card_le_card (t := {320}) fun x hx => (Store.mem_sharers.mp hx).1
  omega

/-- What a space reads before anything is written. -/
theorem view_pairMachine {v f : Nat} (h : v = 32768 ∧ f = 322 ∨ v = 32769 ∧ f = 323) :
    (toStore (pairMachine top) {320}).view 320 v = some (true, page (pairMachine top).mem f) := by
  unfold Store.view
  rw [entry_pairMachine]
  obtain ⟨rfl, rfl⟩ | ⟨rfl, rfl⟩ := h
  · rfl
  · rfl

/-- After the fork both pages are copy-on-write in both spaces, counted twice. -/
theorem Cloned.pair {m' : Machine} {t v f : Nat} (h : Cloned (pairMachine top) m' {320} 320 t)
    (htop : 401 < top) (hv : v = 32768 ∧ f = 322 ∨ v = 32769 ∧ f = 323) :
    (∀ x, x = 320 ∨ x = t → (toStore m' (insert t {320})).entry x v = some ⟨f, .cow⟩) ∧
      m'.pmm.pageRefs f = 2 ∧ page m'.mem f = page (pairMachine top).mem f := by
  have he : (toStore (pairMachine top) {320}).entry 320 v = some ⟨f, .writable⟩ := by
    rw [entry_pairMachine]
    obtain ⟨rfl, rfl⟩ | ⟨rfl, rfl⟩ := hv
    · rfl
    · rfl
  have hpage := h.content 320 (mem_singleton_self 320) v _ he
  refine ⟨fun x hx => ?_, ?_, hpage⟩
  · rw [h.entry x (by rw [mem_insert, mem_singleton]; exact hx.symm), if_pos hx, he]
    rfl
  · rw [h.refs v _ he, pageRefs_pairMachine htop]
    obtain ⟨-, rfl⟩ | ⟨-, rfl⟩ := hv
    · exact .inl rfl
    · exact .inr rfl

theorem three_le_freeBelow_pairMachine : 3 ≤ freeBelow 32768 (pairMachine 402).pmm := by
  have hfree : 403 - 400 ≤ freeBelow 32768 (pairMachine 402).pmm :=
    sub_le_freeBelow (by decide) fun p hlo hhi => by
      rw [pageIsFree_pairMachine, decide_eq_true_eq]
      omega
  exact hfree

/-- With the third free frame below 128 MB the fork is the start of a run. -/
theorem cowRun_pairMachine {t : Nat} {m : Machine} (ht : t ≠ 0)
    (hrun : uvmClone (pairMachine 402) (320 * 4096) = some (t * 4096, m)) :
    CowRun LowFrames (pairMachine 402) 320 m (insert t {320})
      (eagerClone (toStore (pairMachine 402) {320}).view 320 t) := by
  have htwo : tablesUsed (pairMachine 402).mem 320 32 736 + 1 ≤
      freeBelow 32768 (pairMachine 402).pmm := by
    have hthree := three_le_freeBelow_pairMachine
    rw [tablesUsed_pairMachine]
    omega
  exact CowRun.start.fork (mem_singleton_self 320) ⟨shareable_pairMachine, htwo⟩ hrun ht

end Pair

/-! ## the refinement -/

/-- **Copy-on-write refines eager copying**: in every run from a space with
private pages whose frames all lie below 128 MB, every address space reads at
every user address the byte it would read if each fork had copied every page. -/
theorem cow_refines_eager {m₀ m : Machine} {d₀ k : Nat} {kt : Nat → Nat} {ds : Finset Nat}
    {V : Views}
    (h₀ : PrivateSpace m₀ d₀ kt k) (hrun : CowRun LowFrames m₀ d₀ m ds V) {d : Nat} (hd : d ∈ ds)
    {a : Nat} (ha : UserPage (a / 4096)) :
    userRead m.mem (d * 4096) a = V.read d a := by
  obtain ⟨-, href⟩ := hrun.refines h₀
  obtain ⟨owner, hlay⟩ := href.layout
  rw [hlay.userRead hd ha]
  unfold Views.read
  rw [href.view d hd]

/-- A fork and a write that copies: the parent reads what it wrote, the child the
old byte. -/
theorem cow_refines_eager_pair : ∃ m t V, t ≠ 320 ∧
    CowRun LowFrames (pairMachine 402) 320 m {t, 320} V ∧
    userRead m.mem (320 * 4096) 0x08001000 = some 0x43 ∧
    userRead m.mem (t * 4096) 0x08001000 = some 0x42 := by
  have hpriv := privateSpace_pairMachine (show 401 < 402 by decide)
  obtain ⟨t, m, owner, hrun, ht0, ht, hlay, hcloned⟩ :=
    uvmClone_pairMachine (show 401 < 402 by decide)
  have hroom : 0 < freeBelow 32768 m.pmm := by
    have hthree := three_le_freeBelow_pairMachine
    have hcount := hcloned.free
    rw [tablesUsed_pairMachine] at hcount
    omega
  have halloc : (pmmAlloc m.pmm).1 ≠ 0 := by
    obtain ⟨f, -, hf0, -, heq⟩ := Machine.alloc_below (by decide) hlay.zero hroom
    have haddr : (pmmAlloc m.pmm).1 = f * 4096 := congrArg Prod.fst heq
    omega
  have hwritten := (cowRun_pairMachine ht0 hrun).write (a := 0x08001000) (b := 0x43) (by decide)
    ⟨fun _ => halloc, fun _ => hroom⟩
  have hcr3 : m.cr3 / 4096 = 320 := by
    rw [hcloned.regs.cr3]
    rfl
  rw [hcr3] at hwritten
  have hview : (toStore (pairMachine 402) {320}).view 320 32769 = _ :=
    view_pairMachine (.inr ⟨rfl, rfl⟩)
  refine ⟨_, t, _, ht, hwritten, ?_, ?_⟩
  · rw [cow_refines_eager hpriv hwritten (by simp) (by decide)]
    unfold Views.read eagerWrite eagerClone
    rw [show (0x08001000 : Nat) / 4096 = 32769 from rfl, if_pos ⟨rfl, rfl⟩, ite_self, hview]
    decide
  · rw [cow_refines_eager hpriv hwritten (by simp) (by decide)]
    unfold Views.read eagerWrite eagerClone
    rw [show (0x08001000 : Nat) / 4096 = 32769 from rfl, if_neg fun hc => ht hc.1,
      if_pos rfl, hview]
    decide

/-- **Beyond 128 MB**: the same fork and write when the frame at `0x08000000` is the
only one left.  `page_fault` copies through that address, into the first page of
the process. -/
theorem cow_pair_overwrites_page : ∃ m t V, PrivateSpace (pairMachine 32768) 320 (256 + ·) 16 ∧
    CowRun Shareable (pairMachine 32768) 320 m {t, 320} V ∧
    userRead m.mem (320 * 4096) 0x08000000 = some 0x42 ∧ V.read 320 0x08000000 = some 0x41 := by
  have hhigh : ¬Low 32768 := by unfold Low; decide
  obtain ⟨t, m, owner, hrun, ht0, -, hlay, hcloned⟩ :=
    uvmClone_pairMachine (show 401 < 32768 by decide)
  have he := (hcloned.pair (by decide) (.inl ⟨rfl, rfl⟩)).1 320 (.inl rfl)
  obtain ⟨hentry', hrefs', hpage'⟩ := hcloned.pair (by decide) (.inr ⟨rfl, rfl⟩)
  have he' := hentry' 320 (.inl rfl)
  have hcr3 : m.cr3 = 320 * 4096 := hcloned.regs.cr3
  have hneed := needsCopy_of_entry he' (by rw [hrefs']; decide)
  have hframe : pteAt m.mem 320 32769 / 4096 = 323 :=
    (Entry.mk.inj (entry_toStore.mp he').2.2).1.symm
  -- the fork has taken the frames below 128 MB
  have halloc : pmmAlloc m.pmm = (32768 * 4096, m.pmm.grant 32768) := by
    refine pmmAlloc_of_freeBelow_eq_zero (by decide) ?_ ?_
    · have hfree := hcloned.free
      rw [freeBelow_pairMachine, tablesUsed_pairMachine] at hfree
      omega
    · rw [hcloned.high _ hhigh, pageIsFree_pairMachine]
      decide
  obtain ⟨m', hwrite, hread⟩ := hlay.userWrite_beyond (a := 0x08001000) (g := 32768) (by simp) hcr3
    (by unfold Machine.writeProtect; rw [hcloned.regs.cr0]; rfl) (by decide) hneed
    (by unfold Machine.alloc; rw [halloc]) hhigh (by decide) (by decide)
      (entry_toStore.mp he).2.1 0x43
  have hstart : CowRun Shareable (pairMachine 32768) 320 _ _ _ := .start
  have hwritten := (hstart.fork (by simp) shareable_pairMachine hrun ht0).write (a := 0x08001000)
    (b := 0x43)
    (by decide) (fun _ => by rw [halloc]; exact Nat.succ_ne_zero _)
  rw [hwrite] at hwritten
  refine ⟨m', t, _, privateSpace_pairMachine (by decide), hwritten, ?_, ?_⟩
  · have hbyte := hread 0 (by decide)
    rw [show 0x08001000 / 4096 = 32769 from rfl, hframe] at hbyte
    refine hbyte.trans (congrArg some ((congrFun hpage' 0).trans ?_))
    decide
  · unfold Views.read eagerWrite eagerClone
    rw [show (0x08000000 : Nat) / 4096 = 32768 from rfl, if_neg (fun hc => absurd hc.2 (by decide)),
      ite_self, view_pairMachine (.inl ⟨rfl, rfl⟩)]
    decide

end AliOS
