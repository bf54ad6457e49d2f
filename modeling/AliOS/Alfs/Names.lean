import AliOS.Alfs.Extents

/-!
# AliOS.Alfs.Names

File names.  `strncpy_name` keeps the first 51 characters of a name, `streq`
compares all of it, so the two agree on names that fit the field and on no
others: an entry made under a longer name is not found again
(`find_eq_slot_iff`), and a second call makes a second entry of the same text.
While every name fits, names stay unique and lookups find what was made.
-/

namespace AliOS

open Lib List

variable {n : CStr} {dir dir' base : Bytes}

/-! ## comparing names -/

/-- `streq` compares the characters and the terminator. -/
theorem streq_eq_true {a : Bytes} {cs : List UInt8} (hcs : ∀ c ∈ cs, c ≠ 0) :
    streq a cs ↔ ∀ k ≤ cs.length, a k = cs.getD k 0 := by
  induction cs generalizing a with
  | nil => simp [streq]
  | cons c cs ih =>
    have hc : c ≠ 0 := hcs c mem_cons_self
    unfold streq
    by_cases h : a 0 = c
    · rw [if_pos ⟨h ▸ hc, h⟩, ih fun d hd => hcs d (mem_cons_of_mem _ hd)]
      constructor
      · intro hall k hk
        cases k with
        | zero => exact h
        | succ k => exact hall k (by simpa using hk)
      · exact fun hall k hk => hall (k + 1) (by simpa using hk)
    · rw [if_neg fun hand => h hand.2]
      constructor
      · exact fun heq => absurd (by simpa using heq) h
      · exact fun hall => absurd (hall 0 (Nat.zero_le _)) h

/-- The text in the name field of entry `i`. -/
def nameOf (dir : Bytes) (i : Nat) : List UInt8 :=
  (slice dir (64 * i) alfsNameMax).takeWhile (· != 0)

theorem takeWhile_slice_eq {m : Bytes} {a n : Nat} {cs : List UInt8} (hcs : ∀ c ∈ cs, c ≠ 0)
    (hn : cs.length < n) :
    (slice m a n).takeWhile (· != 0) = cs ↔ ∀ k ≤ cs.length, m (a + k) = cs.getD k 0 := by
  induction cs generalizing a n with
  | nil =>
    obtain ⟨n, rfl⟩ : ∃ n', n = n' + 1 := ⟨n - 1, by simp at hn; omega⟩
    rw [slice_succ, takeWhile_cons]
    by_cases h : m a = 0 <;> simp [h]
  | cons c cs ih =>
    have hc : c ≠ 0 := hcs c mem_cons_self
    obtain ⟨n, rfl⟩ : ∃ n', n = n' + 1 := ⟨n - 1, by simp at hn; omega⟩
    have ih' := ih (a := a + 1) (fun d hd => hcs d (mem_cons_of_mem _ hd))
      (by simpa using hn)
    rw [slice_succ, takeWhile_cons]
    constructor
    · intro heq k hk
      by_cases h : m a = 0
      · simp [h] at heq
      · simp only [bne_iff_ne, ne_eq, h, not_false_eq_true, if_true, List.cons.injEq] at heq
        cases k with
        | zero => exact heq.1
        | succ k =>
          rw [show a + (k + 1) = a + 1 + k by omega]
          exact ih'.mp heq.2 k (by simpa using hk)
    · intro hall
      have h0 : m a = c := hall 0 (Nat.zero_le _)
      have htail := ih'.mpr fun k hk => by
        rw [show a + 1 + k = a + (k + 1) by omega]
        exact hall (k + 1) (by simpa using hk)
      rw [h0, htail]
      simp [hc]

/-- For a name that fits the field, `streq` compares the text. -/
theorem streq_entryName {i : Nat} (hn : n.length < alfsNameMax) :
    streq (entryName dir i) n.chars ↔ nameOf dir i = n.chars := by
  rw [streq_eq_true n.noNul, nameOf, takeWhile_slice_eq n.noNul hn]
  exact Iff.rfl

/-! ## what a call does to the names -/

/-- The name a call makes an entry for. -/
def AlfsCall.creates : AlfsCall → Option CStr
  | .write name _ _ => name
  | .mkdir path => path
  | .delete _ => none

/-- `dir'` has no used entry that `dir` has not, under the same name. -/
def SubNames (dir' dir : Bytes) : Prop :=
  ∀ i, entryUsed dir' i = true → entryUsed dir i = true ∧ nameOf dir' i = nameOf dir i

theorem SubNames.refl (dir : Bytes) : SubNames dir dir := fun _ hu => ⟨hu, rfl⟩

theorem nameOf_congr {i : Nat} (h : ∀ k < alfsNameMax, dir' (64 * i + k) = dir (64 * i + k)) :
    nameOf dir' i = nameOf dir i := by
  unfold nameOf
  rw [slice_congr h]

theorem subNames_setFlags_zero (dir : Bytes) (slot : Nat) : SubNames (setFlags dir slot 0) dir := by
  intro i hu
  have hflags : entryFlags (setFlags dir slot 0) i = if i = slot then 0 else entryFlags dir i :=
    entryFlags_setFlags (by decide) i
  by_cases hi : i = slot
  · rw [if_pos hi] at hflags
    rw [(entryUsed_of_flags hflags).1] at hu
    exact absurd hu (by decide)
  · rw [if_neg hi] at hflags
    refine ⟨(entryUsed_congr hflags).1 ▸ hu, nameOf_congr fun k hk => setFlags_of_notMem ?_⟩
    unfold alfsNameMax at hk
    omega

theorem Chosen.subNames {slot : Nat} (h : Chosen dir n slot base) :
    SubNames base dir := by
  obtain ⟨-, -, rfl⟩ | ⟨-, -, rfl⟩ := h
  · exact subNames_setFlags_zero dir slot
  · exact .refl base

/-- A used entry filled in under the name `n`. -/
def Made (dir' : Bytes) (slot : Nat) (base : Bytes) (n : CStr) : Prop :=
  ∃ start size flags, start < 2 ^ 32 ∧ size < 2 ^ 32 ∧ flags < 2 ^ 32 ∧
    (flags &&& alfsFlagUsed != 0) = true ∧ dir' = setEntry base slot n start size flags

/-- A call makes an entry for its name in a slot chosen as `alfs_write` does,
or makes none and fails. -/
theorem run_names (c : AlfsCall) (o : List AtaOutcome) (fs : Fs) :
    (SubNames (c.run o fs).2.dir fs.dir ∧ (c.creates ≠ none → (c.run o fs).1 = -1)) ∨
    ∃ n slot base, c.creates = some n ∧ Chosen fs.dir n slot base ∧
      Made (c.run o fs).2.dir slot base n ∧ (c.run o fs).2.ready ∧
      ((c.run o fs).1 = -1 ∨ (c.run o fs).1 = slot) := by
  cases c with
  | write name buf size =>
    show (SubNames (alfsWrite (fs.withScript o) name buf size.toNat).2.dir fs.dir ∧ _) ∨ _
    obtain ⟨heq, -⟩ | ⟨n, slot, base, rfl, hr, -, hch, hout⟩ :=
      alfsWrite_cases (fs.withScript o) name buf size.toNat
    · exact .inl ⟨by rw [heq]; exact .refl _, fun _ => congrArg Prod.fst heq⟩
    · obtain ⟨hready, ⟨hret, hdir⟩ | ⟨hdir, hret⟩⟩ := hout.dir_cases
      · exact .inl ⟨by rw [hdir]; exact hch.subNames, fun _ => hret⟩
      · exact .inr ⟨n, slot, base, rfl, hch, ⟨_, _, _, highWater_lt base, size.toNat_lt,
          by decide, by decide, hdir⟩, hready.trans hr, hret⟩
  | mkdir path =>
    show (SubNames (alfsMkdir (fs.withScript o) path).2.dir fs.dir ∧ _) ∨ _
    obtain ⟨heq, -⟩ | ⟨p, slot, rfl, hr, hfind, hslot, ok, fs', hflush, heq⟩ :=
      alfsMkdir_cases (fs.withScript o) path
    · exact .inl ⟨by rw [heq]; exact .refl _, fun _ => congrArg Prod.fst heq⟩
    · obtain ⟨hdir, hready⟩ := flush_keeps hflush
      refine .inr ⟨p, slot, fs.dir, rfl, .inr ⟨hfind, hslot, rfl⟩,
        ⟨0, 0, alfsFlagUsed ||| alfsFlagDir,
        by decide, by decide, by decide, by decide, ?_⟩, ?_, ?_⟩
      · show (alfsMkdir (fs.withScript o) (some p)).2.dir = _
        rw [heq]
        exact hdir
      · show (alfsMkdir (fs.withScript o) (some p)).2.ready = _
        rw [heq]
        exact hready.trans hr
      · show (alfsMkdir (fs.withScript o) (some p)).1 = _ ∨
          (alfsMkdir (fs.withScript o) (some p)).1 = _
        rw [heq]
        cases ok
        · exact .inl rfl
        · exact .inr rfl
  | delete name =>
    refine .inl ⟨?_, fun h => absurd rfl h⟩
    show SubNames (alfsDelete (fs.withScript o) name).2.dir fs.dir
    obtain ⟨heq, -⟩ | ⟨n, slot, rfl, -, -, ok, fs', hflush, heq⟩ :=
      alfsDelete_cases (fs.withScript o) name
    · rw [heq]; exact .refl _
    · rw [heq, (flush_keeps hflush).1]
      exact subNames_setFlags_zero _ _

/-! ## runs -/

/-- The used entries have pairwise distinct names. -/
def DistinctNames (dir : Bytes) : Prop :=
  ∀ i < alfsMaxFiles, ∀ j < alfsMaxFiles, entryUsed dir i = true → entryUsed dir j = true →
    nameOf dir i = nameOf dir j → i = j

/-- The name of the entry a call makes fits the field. -/
def AlfsCall.ShortName (c : AlfsCall) : Prop :=
  ∀ n, c.creates = some n → n.length < alfsNameMax

theorem DistinctNames.sub (h : DistinctNames dir) (hsub : SubNames dir' dir) :
    DistinctNames dir' := by
  intro i hi j hj hui huj heq
  obtain ⟨hui', hni⟩ := hsub i hui
  obtain ⟨huj', hnj⟩ := hsub j huj
  exact h i hi j hj hui' huj' (hni.symm.trans (heq.trans hnj))

/-- No entry left in use when the slot is filled in has the new name. -/
theorem Chosen.name_ne {slot : Nat} (h : Chosen dir n slot base) (hd : DistinctNames dir)
    (hn : n.length < alfsNameMax) {j : Nat} (hj : j < alfsMaxFiles) (hne : j ≠ slot)
    (hu : entryUsed base j) : nameOf base j ≠ n.chars := by
  intro heq
  obtain ⟨hu', hname⟩ := h.subNames j hu
  rw [hname] at heq
  obtain ⟨hf, -, -⟩ | ⟨hf, -, -⟩ := h
  · obtain ⟨hslot, hus, hs, -⟩ := findEntry_eq_some.mp hf
    exact hne (hd j hj slot hslot hu' hus (heq.trans ((streq_entryName hn).mp hs).symm))
  · exact findEntry_eq_none.mp hf j hj ⟨hu', (streq_entryName hn).mpr heq⟩

/-- The entry made has the first 51 characters of its name, and is the only
change. -/
theorem Made.spec {slot : Nat} (h : Made dir' slot base n) :
    entryUsed dir' slot ∧
    (∀ k < alfsNameMax, entryName dir' slot k = if k < alfsNameMax - 1 then n.get k else 0) ∧
    ∀ j ≠ slot, entryUsed dir' j = entryUsed base j ∧ nameOf dir' j = nameOf base j := by
  obtain ⟨start, size, flags, hst, hsz, hfl, hused, rfl⟩ := h
  obtain ⟨-, -, hflags, hname⟩ := setEntry_self base slot n hst hsz hfl
  refine ⟨(entryUsed_of_flags hflags).1.trans hused, hname, fun j hj => ?_⟩
  have hother := setEntry_other base hj n start size flags
  refine ⟨(entryUsed_congr (entry_congr hother).2.2).1, nameOf_congr fun k hk => hother k ?_⟩
  unfold alfsNameMax at hk
  omega

/-- `streq` finds the entry made for `n` under `n` exactly when `n` fits. -/
theorem Made.streq_iff {slot : Nat} (h : Made dir' slot base n) :
    streq (entryName dir' slot) n.chars ↔ n.length < alfsNameMax := by
  obtain ⟨-, hname, -⟩ := h.spec
  rw [streq_eq_true n.noNul]
  constructor
  · -- the terminator is stored at position 51, where a longer name has a character
    intro hall
    by_contra hlong
    have h51 := hall (alfsNameMax - 1) (show alfsNameMax - 1 ≤ n.length by omega)
    rw [hname _ (by decide), if_neg (Nat.lt_irrefl _)] at h51
    exact CStr.get_of_lt (show alfsNameMax - 1 < n.length by unfold alfsNameMax at *; omega)
      h51.symm
  · intro hn k hk
    have hk' : k ≤ n.length := hk
    rw [hname k (by omega)]
    split
    · rfl
    · exact (CStr.get_of_le (show n.length ≤ k by omega)).symm

theorem Made.distinct {slot : Nat} (h : Made dir' slot base n) (hch : Chosen dir n slot base)
    (hd : DistinctNames dir) (hn : n.length < alfsNameMax) :
    DistinctNames dir' := by
  obtain ⟨-, -, hother⟩ := h.spec
  have hslot : nameOf dir' slot = n.chars := (streq_entryName hn).mp (h.streq_iff.mpr hn)
  -- no other entry has the name of the one just made
  have hfresh : ∀ j < alfsMaxFiles, j ≠ slot → entryUsed dir' j = true →
      nameOf dir' j ≠ nameOf dir' slot := by
    intro j hj hne hu
    obtain ⟨huj, hnj⟩ := hother j hne
    rw [hslot, hnj]
    exact hch.name_ne hd hn hj hne (huj ▸ hu)
  intro i hi j hj hui huj heq
  by_cases his : i = slot
  · by_contra hne
    exact hfresh j hj (fun h => hne (his.trans h.symm)) huj (his ▸ heq.symm)
  · by_cases hjs : j = slot
    · exact absurd (hjs ▸ heq) (hfresh i hi his hui)
    · obtain ⟨hui', hni⟩ := hother i his
      obtain ⟨huj', hnj⟩ := hother j hjs
      exact hd.sub hch.subNames i hi j hj (hui' ▸ hui) (huj' ▸ huj) (hni ▸ hnj ▸ heq)

/-- A call under a name that fits keeps the names distinct. -/
theorem run_distinct {fs : Fs} (hd : DistinctNames fs.dir) {c : AlfsCall} (hc : c.ShortName)
    (o : List AtaOutcome) : DistinctNames (c.run o fs).2.dir := by
  obtain ⟨hsub, -⟩ | ⟨n, slot, base, hcr, hch, hmade, -, -⟩ := run_names c o fs
  · exact hd.sub hsub
  · exact hmade.distinct hch hd (hc n hcr)

/-- After a call that made an entry for `n`, a lookup of `n` gives its slot
exactly when `n` fits. -/
theorem find_eq_slot_iff {fs : Fs} (hd : DistinctNames fs.dir) {c : AlfsCall}
    (hcr : c.creates = some n) (o : List AtaOutcome) (hret : 0 ≤ (c.run o fs).1) :
    alfsFind (c.run o fs).2 (some n) = (c.run o fs).1 ↔ n.length < alfsNameMax := by
  obtain ⟨-, hfail⟩ | ⟨n', slot, base, hcr', hch, hmade, hready, hslot⟩ := run_names c o fs
  · rw [hfail (by rw [hcr]; exact Option.some_ne_none n)] at hret
    exact absurd hret (by decide)
  · obtain rfl : n = n' := Option.some.inj (hcr.symm.trans hcr')
    have hslot : (c.run o fs).1 = (slot : Int) := by omega
    have hno : ¬(!(c.run o fs).2.ready) := by simp [hready]
    unfold alfsFind
    simp only [hno, hslot]
    constructor
    · intro hfind
      rw [← hmade.streq_iff]
      cases hf : findEntry (c.run o fs).2.dir n with
      | none => rw [hf] at hfind; simp [slotOrFail] at hfind
      | some i =>
        rw [hf] at hfind
        obtain rfl : i = slot := by simpa [slotOrFail] using hfind
        exact (findEntry_eq_some.mp hf).2.2.1
    · intro hn
      have hd' := hmade.distinct hch hd hn
      have hused := hmade.spec.1
      have hstreq := hmade.streq_iff.mpr hn
      have hfind : findEntry (c.run o fs).2.dir n = some slot := by
        refine findEntry_eq_some.mpr ⟨hch.lt, hused, hstreq, fun j hj hand => ?_⟩
        have hlt := hch.lt
        have heq : nameOf (c.run o fs).2.dir j = nameOf (c.run o fs).2.dir slot :=
          ((streq_entryName hn).mp hand.2).trans ((streq_entryName hn).mp hstreq).symm
        have := hd' j (by omega) slot hlt hand.1 hused heq
        omega
      simp [hfind, slotOrFail]

/-- **Names**: from distinct names every sequence of calls that make entries
under names of at most 51 characters keeps them distinct, and in every state
reached a call that made an entry is found again under its name exactly when
the name has at most 51 characters. -/
theorem alfs_names_distinct_and_found {fs₀ fs : Fs} (hd : DistinctNames fs₀.dir)
    (hrun : AlfsRun (fun _ _ c => c.ShortName) fs₀ fs) :
    DistinctNames fs.dir ∧
    ∀ (o : List AtaOutcome) (c : AlfsCall),
      (c.ShortName → DistinctNames (c.run o fs).2.dir) ∧
      ∀ n, c.creates = some n → 0 ≤ (c.run o fs).1 →
        (alfsFind (c.run o fs).2 (some n) = (c.run o fs).1 ↔ n.length < alfsNameMax) := by
  have hdist : DistinctNames fs.dir := by
    induction hrun with
    | nil => exact hd
    | call o c _ hc ih => exact run_distinct ih hc o
  exact ⟨hdist, fun o c => ⟨fun hc => run_distinct hdist hc o,
    fun n hcr hret => find_eq_slot_iff hdist hcr o hret⟩⟩

theorem alfs_names_distinct_and_found_small :
    let fs := ((AlfsCall.mkdir (some letterA)).run [] (blankFs fun _ => 0)).2
    DistinctNames fs.dir ∧
      alfsFind ((AlfsCall.write (some letterB) (some fun _ => 1) 3).run [] fs).2 (some letterB) =
        ((AlfsCall.write (some letterB) (some fun _ => 1) 3).run [] fs).1 := by
  have hshort : ∀ c : AlfsCall, c.creates = some letterA ∨ c.creates = some letterB →
      c.ShortName := by
    intro c hc n hn
    rw [hn] at hc
    obtain h | h := hc <;> cases Option.some.inj h <;> decide
  have h := alfs_names_distinct_and_found
    (show DistinctNames (blankFs fun _ => 0).dir from fun i hi _ _ hu => by
      rw [blankFs, entryUsed_blank i hi] at hu; contradiction)
    (.call [] (.mkdir (some letterA)) .nil (hshort _ (.inl rfl)))
  refine ⟨h.1, ?_⟩
  exact ((h.2 [] (.write (some letterB) (some fun _ => 1) 3)).2 letterB rfl (by decide +kernel)).mpr
    (by decide)

/-- A name of 52 characters. -/
def longName : CStr := ⟨List.replicate 52 97, by simp⟩

/-- Two directories made under it: neither is found, and they share one name. -/
theorem alfs_long_name_twice :
    let fs₀ := blankFs fun _ => 0
    let fs₁ := ((AlfsCall.mkdir (some longName)).run [] fs₀).2
    let fs₂ := ((AlfsCall.mkdir (some longName)).run [] fs₁).2
    DistinctNames fs₀.dir ∧ longName.length ≤ 63 ∧
    ((AlfsCall.mkdir (some longName)).run [] fs₀).1 = 0 ∧ alfsFind fs₁ (some longName) = -1 ∧
    ((AlfsCall.mkdir (some longName)).run [] fs₁).1 = 1 ∧ alfsFind fs₂ (some longName) = -1 ∧
    ¬DistinctNames fs₂.dir := by
  refine ⟨fun i hi _ _ hu => ?_, by decide, by decide +kernel, by decide +kernel, by decide +kernel,
    by decide +kernel, fun h => ?_⟩
  · rw [blankFs, entryUsed_blank i hi] at hu
    contradiction
  · exact absurd (h 0 (by decide) 1 (by decide) (by decide +kernel) (by decide +kernel)
      (by decide +kernel)) (by decide)

end AliOS
