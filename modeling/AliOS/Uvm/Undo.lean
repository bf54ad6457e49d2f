import AliOS.Cow
import AliOS.Uvm.Teardown

/-!
# AliOS.Uvm.Undo

A `uvm_clone` that runs out of memory.  It calls `uvm_free` on what it has built, and that is
no undoing: `uvm_free` starts at entry 0 of the directory and so frees every frame below 128 MB
once, whoever uses it, and the page at which the clone stopped has been counted for the child
but not mapped.  For that one page the two mistakes cancel out.

`spaceFrees` counts how often `uvm_free` frees a frame.  `Halted` is the state of the loops of
`uvm_clone` when `uvm_map` has failed.
-/

namespace AliOS

open Lib Option Finset

variable {u p f : Nat}

/-! ## the frames of a space -/

section

variable {m : Machine} {kt : Nat → Nat} {d : Nat}

theorem one_le_tableFrees (hp : hasFlag (pteAt m.mem d u) pagePresent)
    (hf : pteAt m.mem d u / 4096 = p) : 1 ≤ tableFrees m.mem d (u / 1024) p := by
  have hdir := present_dir_of_present hp
  unfold pteAt at hp hf
  rw [if_pos hdir] at hp hf
  unfold tableFrees
  rw [if_pos hdir]
  refine Nat.le_add_right_of_le (card_pos.mpr ⟨u % 1024, ?_⟩)
  exact mem_filter.mpr ⟨mem_range.mpr (by omega), hp, hf⟩

/-- A frame below 128 MB that the space maps is freed twice. -/
theorem two_le_spaceFrees (h : IdTables m.mem kt) (hdir : IdDir m.mem kt d) (hlow : Low p)
    (hu : UserPage u)
    (hp : hasFlag (pteAt m.mem d u) pagePresent) (hf : pteAt m.mem d u / 4096 = p) :
    2 ≤ spaceFrees m.mem d 768 p := by
  obtain ⟨hlo, hhi⟩ := hu.table
  have hi : p / 1024 < 32 := by
    unfold Low at hlow
    omega
  have hone := tableFrees_identity h hdir hi p
  rw [if_pos rfl] at hone
  have hmap := one_le_tableFrees hp hf
  have hpair : tableFrees m.mem d (p / 1024) p + tableFrees m.mem d (u / 1024) p ≤
      spaceFrees m.mem d 768 p := by
    rw [← sum_pair (f := fun i => tableFrees m.mem d i p) (show p / 1024 ≠ u / 1024 by omega)]
    refine sum_le_sum_of_subset fun i hi => ?_
    rw [mem_insert, mem_singleton] at hi
    exact mem_range.mpr (by omega)
  omega

/-- A space without tables of its own frees the other frames once. -/
theorem spaceFrees_empty (h : IdTables m.mem kt) (hdir : IdDir m.mem kt d)
    (hnone : ∀ i, 32 ≤ i → i < 768 → ¬hasFlag (word m.mem d i) pagePresent) (hp : Low p)
    (hkt : ∀ i < identityTables, kt i ≠ p) : spaceFrees m.mem d 768 p = 1 := by
  have hi : p / 1024 < 32 := by
    unfold Low at hp
    omega
  have hterm : ∀ i ∈ Finset.range 768, tableFrees m.mem d i p = if i = p / 1024 then 1 else 0 := by
    intro i hi'
    rw [mem_range] at hi'
    by_cases hlt : i < 32
    · rw [tableFrees_identity h hdir hlt, if_neg (hkt i hlt), Nat.add_zero]
    · rw [tableFrees, if_neg (hnone i (by omega) hi'), if_neg (by omega)]
  unfold spaceFrees
  rw [sum_congr rfl hterm, sum_ite_eq', if_pos (mem_range.mpr (by omega))]

end

/-! ## the loops of `uvm_clone` -/

section

variable {m m' : Machine} {ds : Finset Nat} {kt : Nat → Nat} {k s t n : Nat}
  {owner : Nat → Option Role}

/-- `uvm_map` has failed at page `n`: it is counted, but not in the new space. -/
structure Halted (m : Machine) (ds : Finset Nat) (kt : Nat → Nat) (k s t n : Nat)
    (m' : Machine) : Prop where
  layout : ∃ owner, Layout m' (insert t ds) kt k owner ∧
    ∀ u f, UserPage u → frameAt m.mem s u = some f → owner f = some (.data u)
  page : UserPage n ∧ frameAt m.mem s n ≠ none
  parent : ∀ u, UserPage u → frameAt m'.mem s u = frameAt m.mem s u
  child : ∀ u, UserPage u → frameAt m'.mem t u = if u < n then frameAt m.mem s u else none
  refs : ∀ u f, UserPage u → frameAt m.mem s u = some f →
    m'.pmm.pageRefs f = if u ≤ n then raised (m.pmm.pageRefs f) else m.pmm.pageRefs f
  since : Since m.pmm m'.pmm
  made : ∀ i ∈ tablesMade m'.mem t, ∃ u, UserPage u ∧ u < n ∧ u / 1024 = i ∧
    frameAt m.mem s u ≠ none
  last : n / 1024 ∉ tablesMade m'.mem t
  room : (tablesMade m'.mem t).card + 1 = freeBelow 32768 m.pmm

/-- The page that `uvm_map` has no table for. -/
theorem Sharing.halt (h0 : Layout m ds kt k owner) (hs : s ∈ ds) (ht : t ∉ ds) (hm : Tidy m.pmm)
    (h : Sharing m ds kt k s t n m') (hv : UserPage n)
    (hdir : hasFlag (word m.mem s (n / 1024)) pagePresent) (hf : frameAt m.mem s n = some f)
    (habs : ¬hasFlag (word m'.mem t (n / 1024)) pagePresent)
    (hnone : freeBelow pagesMax m'.pmm = 0) :
    ∃ m'', uvmCloneEntry (t * 4096) (n / 1024) (word m.mem s (n / 1024) / 4096 * 4096)
      (n % 1024) (false, m') =
        some (true, m'') ∧ Halted m ds kt k s t n m'' := by
  obtain ⟨owner', hlay, hrole⟩ := h.layout
  obtain ⟨hlo, hhi⟩ := hv.table
  obtain ⟨hflt, hused⟩ := h0.frameAt_used hs hv hf
  have hst : s ≠ t := by
    rintro rfl
    exact ht hs
  have hs' : s ∈ insert t ds := mem_insert_of_mem hs
  have ht' : t ∈ insert t ds := mem_insert_self t ds
  have hword : word m'.mem s (n / 1024) = word m.mem s (n / 1024) := word_congr (by omega) h.src
  obtain ⟨hp, hpf⟩ := frameAt_eq_some.mp ((h.parent hs hst hv).trans hf)
  obtain ⟨mem1, flags, hrun, hlay1, -, -, -, hent, hpages⟩ :=
    hlay.cloneEntry_eq hs' hv (by rw [hword]; exact hdir) hp t
  rw [hword, hpf] at hrun
  rw [hpf] at hlay1 hent
  have htword : ∀ j < 1024, word mem1 t j = word m'.mem t j := fun j hj =>
    word_congr hj (hpages t _ (hlay.dirs t ht').1 (by simp))
  have hmade : tablesMade mem1 t = tablesMade m'.mem t :=
    filter_congr fun i hi => by rw [htword i (by have := mem_Ico.mp hi; omega)]
  have hframe : ∀ x ∈ insert t ds, ∀ u, UserPage u → frameAt mem1 x u = frameAt m'.mem x u :=
    fun x hx u hu => by
    unfold frameAt
    rw [hent x hx u hu]
    split
    · rename_i hc
      rw [hc.1, hc.2]
      exact ((h.parent hs hst hv).trans hf).symm
    · rfl
  obtain ⟨c, hid, -⟩ := hlay1.idMapped
  have hmap := @IdMapped.uvmMap_none _ kt c t (n * 4096) hid (hlay.dir_low ht') (by omega)
    (by
      rw [show n * 4096 / 2 ^ 22 = n / 1024 by omega]
      rwa [htword _ (by omega)])
    (show freeBelow pagesMax (pmmAddref m'.pmm (f * 4096)) = 0 by rw [freeBelow_pmmAddref, hnone])
      (f * 4096) flags
  rw [hmap] at hrun
  have hlow : freeBelow 32768 m'.pmm = 0 :=
    Nat.le_zero.mp (hnone ▸ freeBelow_mono m'.pmm (show 32768 ≤ pagesMax by decide))
  have hroom := h.room
  refine ⟨_, hrun, ⟨owner', hlay1, hrole s hs⟩, ⟨hv, by simp [hf]⟩,
    fun u hu => (hframe s hs' u hu).trans (h.parent hs hst hu),
    fun u hu => (hframe t ht' u hu).trans (h.child hu),
    fun u g hu hg => ?_, (h.since hm).addref hflt hused,
    fun i hi => h.made i (hmade ▸ hi), fun hmem => habs ?_, ?_⟩
  · simpa only [hg, true_and, Nat.lt_succ_iff] using h.addref h0 hs hv hf s hs u g hu hg
  · rw [hmade] at hmem
    exact (mem_tablesMade.mp hmem).2
  · rw [hmade]
    omega

/-! ## what is left of a failed clone -/

/-- A clone that has stopped had no frame for one of its tables. -/
theorem Halted.tooFew (h : Halted m ds kt k s t n m') :
    freeBelow 32768 m.pmm < tablesUsed m.mem s 32 736 + 1 := by
  have hlt := card_tablesMade_lt h.made h.page.1 h.page.2 h.last
  have hroom := h.room
  omega

/-- The parent's counts and mappings are as before, and the frames taken are free again. -/
structure CloneUndone (m m' : Machine) (s : Nat) : Prop where
  refs : ∀ v f, UserPage v → frameAt m.mem s v = some f → m'.pmm.pageRefs f = m.pmm.pageRefs f
  freed : ∀ f < pagesMax, pageIsFree m.pmm f = true → pageIsFree m'.pmm f = true
  pairs : ∀ v, UserPage v → frameAt m'.mem s v = frameAt m.mem s v

/-- Page `v` is the only one of space `s`, and its frame can be counted once more. -/
def OnlyPage (m : Machine) (s v : Nat) : Prop :=
  (∀ u, UserPage u → frameAt m.mem s u ≠ none → u = v) ∧
    ∀ f, frameAt m.mem s v = some f → m.pmm.pageRefs f < 255

theorem raised_le (c : Nat) : raised c ≤ c + 1 := by
  unfold raised
  split <;> omega

theorem Halted.frame_low (h : Halted m ds kt k s t n m') (hu : UserPage u)
    (hf : frameAt m.mem s u = some f) :
    Low f ∧ f < pagesMax := by
  obtain ⟨owner', hlay, hrole⟩ := h.layout
  have hlow := (hlay.owned f _ (hrole u f hu hf)).1
  exact ⟨hlow, Nat.lt_of_lt_of_le hlow (by decide)⟩

/-- The state after `uvm_free` on the space of a clone that stopped. -/
abbrev Cleaned (m' : Machine) (t : Nat) (m'' : Machine) : Prop :=
  Released m' (fun p => spaceFrees m'.mem t 768 p + if t = p then 1 else 0) m''

theorem Halted.refs_cleaned (h : Halted m ds kt k s t n m') {m'' : Machine}
    (hrel : Cleaned m' t m'')
    (hu : UserPage u) (hf : frameAt m.mem s u = some f) : m''.pmm.pageRefs f =
      (if u ≤ n then raised (m.pmm.pageRefs f) else m.pmm.pageRefs f) -
        (spaceFrees m'.mem t 768 f + if t = f then 1 else 0) := by
  rw [(hrel.refs h.since.tidy).2 f (h.frame_low hu hf).2, h.refs u f hu hf]

/-- A page that was not counted, or that the cleanup finds in the clone, loses a reference. -/
theorem Halted.onlyPage (h : Halted m ds kt k s t n m') {m'' : Machine} (hrel : Cleaned m' t m'')
    (hcount : ∀ v f, UserPage v → frameAt m.mem s v = some f → 1 ≤ m.pmm.pageRefs f)
    (hundone : CloneUndone m m'' s) : OnlyPage m s n := by
  obtain ⟨owner', hlay, -⟩ := h.layout
  obtain ⟨c, hid, -⟩ := hlay.idMapped
  have hdir := (hlay.dirs t (mem_insert_self t ds)).2
  refine ⟨fun u hu hne => ?_, fun f hf => ?_⟩
  · obtain ⟨f, hf⟩ := ne_none_iff_exists'.mp hne
    have hflow := (h.frame_low hu hf).1
    have hrefs := h.refs_cleaned hrel hu hf
    rw [hundone.refs u f hu hf] at hrefs
    have hone := one_le_spaceFrees hid.tables hdir hflow
    have hpos := hcount u f hu hf
    by_contra hun
    by_cases hle : u < n
    · have hchild := h.child u hu
      rw [if_pos hle, hf] at hchild
      obtain ⟨hp, hpf⟩ := frameAt_eq_some.mp hchild
      have htwo := two_le_spaceFrees hid.tables hdir hflow hu hp hpf
      have hraised := raised_le (m.pmm.pageRefs f)
      rw [if_pos (by omega)] at hrefs
      omega
    · rw [if_neg (by omega)] at hrefs
      omega
  · have hrefs := h.refs_cleaned hrel h.page.1 hf
    rw [hundone.refs n f h.page.1 hf, if_pos (Nat.le_refl n)] at hrefs
    have hone := one_le_spaceFrees hid.tables hdir (h.frame_low h.page.1 hf).1
    by_contra hmany
    unfold raised at hrefs
    rw [if_neg hmany] at hrefs
    omega

/-- The clone is empty if the page is the only one, so that the cleanup takes back its one
reference. -/
theorem Halted.refs_eq (h : Halted m ds kt k s t n m') {m'' : Machine} (hrel : Cleaned m' t m'')
    (honly : OnlyPage m s n) (hu : UserPage u) (hf : frameAt m.mem s u = some f) :
    m''.pmm.pageRefs f = m.pmm.pageRefs f := by
  obtain ⟨owner', hlay, hrole⟩ := h.layout
  obtain ⟨c, hid, -⟩ := hlay.idMapped
  have ht' : t ∈ insert t ds := mem_insert_self t ds
  obtain rfl := honly.1 u hu (by simp [hf])
  have hnone : ∀ i, 32 ≤ i → i < 768 → ¬hasFlag (word m'.mem t i) pagePresent :=
    fun i hlo hhi hp => by
    obtain ⟨v, hv, hvn, -, hne⟩ := h.made i (mem_tablesMade.mpr ⟨⟨hlo, hhi⟩, hp⟩)
    have := honly.1 v hv hne
    omega
  have hft : t ≠ f := ne_of_role (hlay.dirs t ht').1 (hrole u f hu hf) (by simp)
  have hfk : ∀ i < identityTables, kt i ≠ f := fun i hi =>
    ne_of_role (hlay.kernel.2 i hi) (hrole u f hu hf) (by simp)
  rw [h.refs_cleaned hrel hu hf, if_pos (Nat.le_refl u),
    spaceFrees_empty hid.tables (hlay.dirs t ht').2 hnone (h.frame_low hu hf).1 hfk,
    if_neg hft, raised,
    if_pos (honly.2 f hf)]
  omega

/-- A frame that was free before the clone has one reference at most, and loses it. -/
theorem Since.free_of_lowered {m'' : Machine} (h : Since m.pmm m'.pmm) (hf : pageIsFree m.pmm f)
    (hle : Lowered m' m'' f) : pageIsFree m''.pmm f := by
  have hweight : pageWeight m'.pmm f ≤ 1 := by
    unfold pageWeight
    cases hf' : pageIsFree m'.pmm f with
    | true => simp
    | false => simp [h.fresh f hf hf']
  unfold Lowered at hle
  by_contra hused
  have hpos : 1 ≤ pageWeight m''.pmm f := by
    unfold pageWeight
    rw [if_neg hused]
    exact Nat.le_max_left _ _
  omega

/-- **The cleanup** of a clone that stopped at page `n`. -/
theorem Halted.uvmFree (h : Halted m ds kt k s t n m') (hlow : OnlyLow m.pmm)
    (hcount : ∀ v f, UserPage v → frameAt m.mem s v = some f → 1 ≤ m.pmm.pageRefs f) :
    ∃ m'', AliOS.uvmFree m' (t * 4096) = some m'' ∧ (CloneUndone m m'' s ↔ OnlyPage m s n) := by
  obtain ⟨owner', hlay, -⟩ := h.layout
  obtain ⟨c, hid, -⟩ := hlay.idMapped
  have ht' : t ∈ insert t ds := mem_insert_self t ds
  have hdir := (hlay.dirs t ht').2
  have htab : ∀ i < 768, hasFlag (word m'.mem t i) pagePresent = true →
      Low (word m'.mem t i / 4096) := fun i hi hp => by
    by_cases hi32 : i < 32
    · rw [(hdir i hi32).frame]
      exact (hlay.owned _ _ (hlay.kernel.2 i hi32)).1
    · exact hlay.table_low ht' (by omega) hi hp
  obtain ⟨m'', hfree, hrel⟩ := uvmFree_released hid (hlay.dir_low ht') htab
  refine ⟨m'', hfree, h.onlyPage hrel hcount,
    fun honly => ⟨fun u f hu hf => h.refs_eq hrel honly hu hf,
    fun f hlt hf => h.since.free_of_lowered hf
      (uvmFree_lowers hid (hlay.dir_low ht') htab hdir hfree (hlow f hlt hf)), fun v hv => ?_⟩⟩
  rw [hrel.mem_eq]
  exact h.parent v hv

theorem uvmClone_none (hzero : freeBelow pagesMax m.pmm = 0) :
    AliOS.uvmClone m (s * 4096) = some (0, m) := by
  have hcreate : AliOS.uvmCreate m = some (0, m) := by
    unfold AliOS.uvmCreate
    rw [Machine.alloc_none hzero]
    rfl
  unfold AliOS.uvmClone
  rw [hcreate]
  rfl

/-- With a frame for the directory a clone goes through, or it stops at a page. -/
theorem Layout.uvmClone_cases (h : Layout m ds kt k owner) (hs : s ∈ ds) (hm : Tidy m.pmm)
    (hlow : freeBelow 32768 m.pmm < tablesUsed m.mem s 32 736 + 1 → OnlyLow m.pmm)
    (hcount : ∀ v f, UserPage v → frameAt m.mem s v = some f → 1 ≤ m.pmm.pageRefs f)
    (hpos : 0 < freeBelow 32768 m.pmm) :
    (tablesUsed m.mem s 32 736 + 1 ≤ freeBelow 32768 m.pmm ∧
      ∃ pd m', AliOS.uvmClone m (s * 4096) = some (pd, m') ∧ pd ≠ 0) ∨
    (freeBelow 32768 m.pmm < tablesUsed m.mem s 32 736 + 1 ∧
      ∃ n m', (UserPage n ∧ frameAt m.mem s n ≠ none) ∧ AliOS.uvmClone m (s * 4096) = some (0, m') ∧
        (CloneUndone m m' s ↔ OnlyPage m s n)) := by
  obtain ⟨t, m₁, hcreate, ht0, ht, hstart⟩ := h.sharing_start hs hpos
  obtain ⟨⟨b, m'⟩, hloop, ⟨rfl, hsh⟩ | ⟨rfl, n, hhalt⟩⟩ :=
    hstart.loop h hs ht (fun m' => ∃ n, Halted m ds kt k s t n m') fun n m' f hsh hv hdir hf
      habs hzero => by
      have hlt := card_tablesMade_lt hsh.made hv (by simp [hf]) fun hmem =>
        habs (mem_tablesMade.mp hmem).2
      have hroom := hsh.room
      have hnone : freeBelow pagesMax m'.pmm = 0 := by
        rw [freeBelow_pagesMax fun f hlt hfree => hlow (by omega) f hlt
          ((hsh.since hm).free f hfree)]
        exact hzero
      obtain ⟨m'', hrun, hhalt⟩ := hsh.halt h hs ht hm hv hdir hf habs hnone
      exact ⟨m'', hrun, n, hhalt⟩
  · have hroom := hsh.room
    rw [hsh.tables] at hroom
    refine .inl ⟨by omega, t * 4096, m', ?_, by omega⟩
    unfold AliOS.uvmClone
    rw [hcreate, bind_some]
    rw [if_neg (by omega), hloop]
    rfl
  · obtain ⟨m'', hfree, hiff⟩ := hhalt.uvmFree (hlow hhalt.tooFew) hcount
    refine .inr ⟨hhalt.tooFew, n, m'', hhalt.page, ?_, hiff⟩
    unfold AliOS.uvmClone
    rw [hcreate, bind_some]
    rw [if_neg (by omega), hloop, bind_some, if_pos rfl, hfree]
    rfl

/-- A clone that has all its frames, or none, leaves nothing behind. -/
theorem Layout.uvmClone_undone (h : Layout m ds kt k owner) (hs : s ∈ ds) (hm : Tidy m.pmm)
    (hcount : ∀ v f, UserPage v → frameAt m.mem s v = some f → 1 ≤ m.pmm.pageRefs f)
    (henough : tablesUsed m.mem s 32 736 + 1 ≤ freeBelow 32768 m.pmm ∨
      freeBelow pagesMax m.pmm = 0) :
    ∃ pd m', AliOS.uvmClone m (s * 4096) = some (pd, m') ∧ (pd = 0 → CloneUndone m m' s) := by
  obtain henough | hzero := henough
  · obtain ⟨-, pd, m', hclone, hpd⟩ | ⟨hfew, -⟩ :=
      h.uvmClone_cases hs hm (fun hfew => absurd henough (Nat.not_le.mpr hfew)) hcount (by omega)
    · exact ⟨pd, m', hclone, fun h0 => absurd h0 hpd⟩
    · omega
  · exact ⟨0, m, uvmClone_none hzero,
      fun _ => ⟨fun _ _ _ _ => rfl, fun _ _ hf => hf, fun _ _ => rfl⟩⟩

/-- **A failed `uvm_clone` is undone** only if it fails at once, or if the parent has no more than
one page, and that is not shared 255 times. -/
theorem uvmClone_undone_iff (h : Layout m ds kt k owner) (hs : s ∈ ds) (hm : Tidy m.pmm)
    (hcount : ∀ v f, UserPage v → frameAt m.mem s v = some f → 1 ≤ m.pmm.pageRefs f) :
    (tablesUsed m.mem s 32 736 + 1 ≤ freeBelow 32768 m.pmm ∨ freeBelow pagesMax m.pmm = 0 →
      ∃ pd m', uvmClone m (s * 4096) = some (pd, m') ∧ (pd = 0 → CloneUndone m m' s)) ∧
    (OnlyLow m.pmm →
      ((∃ pd m', uvmClone m (s * 4096) = some (pd, m') ∧ (pd = 0 → CloneUndone m m' s)) ↔
        tablesUsed m.mem s 32 736 + 1 ≤ freeBelow 32768 m.pmm ∨ freeBelow pagesMax m.pmm = 0 ∨
          ∃ v, UserPage v ∧ frameAt m.mem s v ≠ none ∧ OnlyPage m s v)) := by
  refine ⟨h.uvmClone_undone hs hm hcount, fun hlow => ?_⟩
  by_cases hzero : freeBelow pagesMax m.pmm = 0
  · exact iff_of_true (h.uvmClone_undone hs hm hcount (.inr hzero)) (.inr (.inl hzero))
  · have hpos := hzero
    rw [freeBelow_pagesMax hlow] at hpos
    obtain ⟨henough, -⟩ | ⟨hfew, n, m', ⟨hn, hne⟩, hclone, hiff⟩ :=
      h.uvmClone_cases hs hm (fun _ => hlow) hcount (Nat.pos_of_ne_zero hpos)
    · exact iff_of_true (h.uvmClone_undone hs hm hcount (.inl henough)) (.inl henough)
    · rw [or_iff_right (by omega), or_iff_right hzero]
      constructor
      · rintro ⟨pd, m'', hclone', hundone⟩
        rw [hclone] at hclone'
        obtain ⟨rfl, rfl⟩ := Prod.mk.inj (some.inj hclone')
        exact ⟨n, hn, hne, hiff.mp (hundone rfl)⟩
      · rintro ⟨v, hv, -, honly⟩
        obtain rfl := honly.1 n hn hne
        exact ⟨0, m', hclone, fun _ => hiff.mpr honly⟩

end

/-! ## two pages and one frame -/

theorem frameAt_pairMachine {v : Nat} (hv : UserPage v) : frameAt (pairMachine 402).mem 320 v =
    if v = 32768 then some 322 else if v = 32769 then some 323 else none := by
  unfold frameAt
  rw [pteAt_pairMachine hv]
  split_ifs
  · rfl
  · rfl
  · rfl

theorem tidy_pairMachine : Tidy (pairMachine 402).pmm := fun p _ hp => by
  rw [pageIsFree_pairMachine, decide_eq_true_eq] at hp
  unfold pairMachine
  obtain rfl | rfl | rfl := hp <;> simp

theorem pageRefs_pairMachine_of_frameAt {v : Nat} (hv : UserPage v)
    (hf : frameAt (pairMachine 402).mem 320 v = some f) :
    (pairMachine 402).pmm.pageRefs f = 1 := by
  rw [frameAt_pairMachine hv] at hf
  refine pageRefs_pairMachine (by decide) ?_
  split_ifs at hf
  · exact .inl (some.inj hf).symm
  · exact .inr (some.inj hf).symm

/-- What a clone asks of the process. -/
structure PairSpace (m : Machine) : Prop where
  layout : ∃ owner, Layout m {320} (256 + ·) 16 owner
  tidy : Tidy m.pmm
  counted : ∀ v f, UserPage v → frameAt m.mem 320 v = some f → 1 ≤ m.pmm.pageRefs f

theorem PairSpace.grant (h : PairSpace m) (f : Nat) :
    PairSpace { m with pmm := m.pmm.grant f } where
  layout := h.layout.imp fun _ hlay => hlay.withPmm fun g hg => by
    rw [pageIsFree_grant, hg]
    rfl
  tidy := ((Since.refl h.tidy).grant f).tidy
  counted := fun v g hv hg => by
    rw [pageRefs_grant]
    split_ifs
    · exact Nat.le_refl 1
    · exact h.counted v g hv hg

theorem pairSpace_pairMachine : PairSpace (pairMachine 402) where
  layout := (privateSpace_pairMachine (by decide)).layout
  tidy := tidy_pairMachine
  counted := fun _ _ hv hf => (pageRefs_pairMachine_of_frameAt hv hf).ge

/-- The same process when only frame 402 is left. -/
def lastFrame : Machine :=
  { pairMachine 402 with pmm := ((pairMachine 402).pmm.grant 400).grant 401 }

theorem pairSpace_lastFrame : PairSpace lastFrame := (pairSpace_pairMachine.grant 400).grant 401

theorem pageIsFree_lastFrame (f : Nat) : pageIsFree lastFrame.pmm f = decide (f = 402) := by
  unfold lastFrame
  rw [pageIsFree_grant, pageIsFree_grant, pageIsFree_pairMachine, Bool.eq_iff_iff]
  simp only [Bool.and_eq_true, Bool.not_eq_true', decide_eq_true_eq, decide_eq_false_iff_not]
  omega

theorem freeBelow_lastFrame : freeBelow 32768 lastFrame.pmm = 1 := by
  have hset : ((Finset.range 32768).filter fun p => pageIsFree lastFrame.pmm p = true) = {402} := by
    ext p
    rw [mem_filter, mem_range, mem_singleton, pageIsFree_lastFrame, decide_eq_true_eq]
    omega
  unfold freeBelow
  rw [hset, card_singleton]

/-- And when that one is taken too. -/
def noFrame : Machine := { lastFrame with pmm := lastFrame.pmm.grant 402 }

/-- There the clone fails at once, and the parent is left as it was. -/
theorem uvmClone_undone_pair :
    ∃ m', uvmClone noFrame (320 * 4096) = some (0, m') ∧ CloneUndone noFrame m' 320 := by
  have hpair : PairSpace noFrame := pairSpace_lastFrame.grant 402
  obtain ⟨owner, hlay⟩ := hpair.layout
  have hzero : freeBelow pagesMax noFrame.pmm = 0 := by
    unfold freeBelow
    rw [card_eq_zero, filter_eq_empty_iff]
    intro f _
    unfold noFrame
    rw [pageIsFree_grant, pageIsFree_lastFrame]
    simp
  obtain ⟨pd, m', hclone, hundone⟩ := (uvmClone_undone_iff hlay (mem_singleton_self 320) hpair.tidy
    hpair.counted).1 (.inr hzero)
  have hpd : pd = 0 := by
    rw [uvmClone_none hzero] at hclone
    exact (Prod.mk.inj (some.inj hclone)).1.symm
  subst hpd
  exact ⟨m', hclone, hundone rfl⟩

/-- The frame goes into a directory, and there is none for the table.  Of the parent's two pages
only the first one keeps its count. -/
theorem uvmClone_not_undone :
    ∃ m', uvmClone lastFrame (320 * 4096) = some (0, m') ∧ ¬CloneUndone lastFrame m' 320 := by
  obtain ⟨owner, hlay⟩ := pairSpace_lastFrame.layout
  have hframe : ∀ v, UserPage v → frameAt lastFrame.mem 320 v =
      if v = 32768 then some 322 else if v = 32769 then some 323 else none :=
        fun v hv => frameAt_pairMachine hv
  have htables : tablesUsed lastFrame.mem 320 32 736 = 1 := @tablesUsed_pairMachine 402
  have hlow : OnlyLow lastFrame.pmm := fun f _ hf => by
    rw [pageIsFree_lastFrame, decide_eq_true_eq] at hf
    unfold Low
    omega
  obtain ⟨henough, -⟩ | ⟨-, n, m', -, hclone, hiff⟩ := hlay.uvmClone_cases (mem_singleton_self 320)
    pairSpace_lastFrame.tidy (fun _ => hlow) pairSpace_lastFrame.counted
      (by rw [freeBelow_lastFrame]; decide)
  · rw [freeBelow_lastFrame, htables] at henough
    omega
  · refine ⟨m', hclone, fun hundone => ?_⟩
    have honly := (hiff.mp hundone).1
    have hfirst := honly 32768 (by decide) (by rw [hframe _ (by decide)]; simp)
    have hsecond := honly 32769 (by decide) (by rw [hframe _ (by decide)]; simp)
    omega

end AliOS
