import AliOS.Alfs.Transfer

/-!
# AliOS.Alfs.Directory

The in-memory directory: how the stores of an entry read back, what the two
searches find, where `high_water` ends up, and one inversion lemma per call
(`alfsWrite_cases`, `alfsMkdir_cases`, `alfsDelete_cases`) that lists
everything the call can do to the directory and the disk.
-/

namespace AliOS

open Lib List Option

variable {dir : Bytes} {j i flags size slot : Nat} {name : CStr}

/-! ## entries -/

/-- An entry's fields depend only on its 64 bytes. -/
theorem entry_congr {dir' : Bytes} (h : ∀ k < 64, dir' (64 * j + k) = dir (64 * j + k)) :
    entryStart dir' j = entryStart dir j ∧ entrySize dir' j = entrySize dir j ∧
      entryFlags dir' j = entryFlags dir j := by
  have hword : ∀ o, o + 4 ≤ 64 → load32 dir' (64 * j + o) = load32 dir (64 * j + o) := by
    intro o ho
    refine load32_congr fun k hk => ?_
    rw [Nat.add_assoc]
    exact h (o + k) (by omega)
  exact ⟨hword 52 (by decide), hword 56 (by decide), hword 60 (by decide)⟩

theorem entryUsed_congr {dir' : Bytes} (h : entryFlags dir' j = entryFlags dir j) :
    entryUsed dir' j = entryUsed dir j ∧ entryDir dir' j = entryDir dir j := by
  unfold entryUsed entryDir
  rw [h]
  exact ⟨rfl, rfl⟩

theorem setFlags_of_notMem {a : Nat} (h : a < 64 * i + 60 ∨ 64 * i + 64 ≤ a) :
    setFlags dir i flags a = dir a := store32_of_notMem (by omega)

theorem setEntry_of_notMem {start a : Nat} (h : a < 64 * i ∨ 64 * i + 64 ≤ a) :
    setEntry dir i name start size flags a = dir a := by
  unfold setEntry
  rw [setFlags_of_notMem (by omega), store32_of_notMem (by omega), store32_of_notMem (by omega)]
  exact blit_of_notMem (by unfold alfsNameMax; omega)

/-- `fs_dir[i].flags = flags` is seen by entry `i` only. -/
theorem entryFlags_setFlags (hf : flags < 2 ^ 32) (j : Nat) :
    entryFlags (setFlags dir i flags) j = if j = i then flags else entryFlags dir j := by
  by_cases hj : j = i
  · rw [if_pos hj, hj]
    exact load32_store32_self hf
  · rw [if_neg hj]
    exact load32_store32_of_disjoint (by omega)

theorem entryStart_setFlags (dir : Bytes) (i flags j : Nat) :
    entryStart (setFlags dir i flags) j = entryStart dir j :=
  load32_store32_of_disjoint (by omega)

theorem entrySize_setFlags (dir : Bytes) (i flags j : Nat) :
    entrySize (setFlags dir i flags) j = entrySize dir j :=
  load32_store32_of_disjoint (by omega)

/-- Filling in an entry leaves the others alone. -/
theorem setEntry_other (dir : Bytes) (hj : j ≠ i) (name : CStr) (start size flags : Nat) :
    ∀ k < 64, setEntry dir i name start size flags (64 * j + k) = dir (64 * j + k) :=
  fun k hk => setEntry_of_notMem (by omega)

/-- A filled-in entry reads back. -/
theorem setEntry_self (dir : Bytes) (i : Nat) (name : CStr) {start : Nat} (hstart : start < 2 ^ 32)
    (hsize : size < 2 ^ 32) (hflags : flags < 2 ^ 32) :
    entryStart (setEntry dir i name start size flags) i = start ∧
    entrySize (setEntry dir i name start size flags) i = size ∧
    entryFlags (setEntry dir i name start size flags) i = flags ∧
    ∀ k < alfsNameMax, setEntry dir i name start size flags (64 * i + k) =
      if k < alfsNameMax - 1 then name.get k else 0 := by
  unfold setEntry
  refine ⟨?_, ?_, ?_, fun k hk => ?_⟩
  · rw [entryStart_setFlags]
    exact (load32_store32_of_disjoint (by omega)).trans (load32_store32_self hstart)
  · rw [entrySize_setFlags]
    exact load32_store32_self hsize
  · rw [entryFlags_setFlags hflags, if_pos rfl]
  · unfold alfsNameMax at hk
    rw [setFlags_of_notMem (by omega), store32_of_notMem (by omega), store32_of_notMem (by omega)]
    exact blit_add (by unfold alfsNameMax; omega)

/-- A used entry holding a file. -/
def IsFile (dir : Bytes) (i : Nat) : Prop := entryUsed dir i = true ∧ entryDir dir i = false

theorem entryUsed_of_flags (h : entryFlags dir i = flags) :
    entryUsed dir i = (flags &&& alfsFlagUsed != 0) ∧
      entryDir dir i = (flags &&& alfsFlagDir != 0) := by
  subst h; exact ⟨rfl, rfl⟩

theorem entryUsed_setFlags_zero (dir : Bytes) (i : Nat) :
    entryUsed (setFlags dir i 0) i = false := by
  rw [(entryUsed_of_flags (entryFlags_setFlags (by decide) i)).1, if_pos rfl]
  rfl

/-! ## searches -/

theorem findEntry_eq_some :
    findEntry dir name = some i ↔ i < alfsMaxFiles ∧ entryUsed dir i ∧
      streq (entryName dir i) name.chars ∧
      ∀ j < i, ¬(entryUsed dir j ∧ streq (entryName dir j) name.chars) := by
  simp only [findEntry, List.find?_range'_eq_some, mem_range'_1, Nat.zero_le, true_and,
    Nat.zero_add, Bool.not_eq_true', Bool.and_eq_true, Bool.and_eq_false_iff, forall_const]
  constructor
  · rintro ⟨⟨hu, hs⟩, hi, hmin⟩
    refine ⟨hi, hu, hs, fun j hj => ?_⟩
    have := hmin j hj
    simp only [Bool.eq_false_iff] at this
    tauto
  · rintro ⟨hi, hu, hs, hmin⟩
    refine ⟨⟨hu, hs⟩, hi, fun j hj => ?_⟩
    simp only [Bool.eq_false_iff]
    tauto

theorem findEntry_eq_none :
    findEntry dir name = none ↔ ∀ i < alfsMaxFiles,
      ¬(entryUsed dir i ∧ streq (entryName dir i) name.chars) := by
  simp [findEntry]

theorem firstUnused_eq_some :
    firstUnused dir = some i ↔ i < alfsMaxFiles ∧ entryUsed dir i = false ∧
      ∀ j < i, entryUsed dir j := by
  simp only [firstUnused, List.find?_range'_eq_some, mem_range'_1, Nat.zero_le, true_and,
    Nat.zero_add, Bool.not_not, Bool.not_eq_true', forall_const]
  tauto

/-! ## `high_water` -/

/-- One step of the loop in `high_water`. -/
private def hwmStep (dir : Bytes) (hwm i : Nat) : Nat :=
  if !entryUsed dir i then hwm
  else if entryDir dir i then hwm
  else if entryEnd dir i > hwm then entryEnd dir i else hwm

private theorem le_hwmStep (dir : Bytes) (hwm i : Nat) : hwm ≤ hwmStep dir hwm i := by
  unfold hwmStep
  split
  · exact le_rfl
  · split
    · exact le_rfl
    · split <;> omega

private theorem entryEnd_le_hwmStep (h : IsFile dir i) (hwm : Nat) :
    entryEnd dir i ≤ hwmStep dir hwm i := by
  unfold hwmStep
  rw [h.1, h.2]
  simp only [Bool.not_true, Bool.false_eq_true, if_false]
  split <;> omega

private theorem foldl_hwmStep (dir : Bytes) (l : List Nat) (hwm : Nat) :
    hwm ≤ l.foldl (hwmStep dir) hwm ∧
      ∀ i ∈ l, IsFile dir i → entryEnd dir i ≤ l.foldl (hwmStep dir) hwm := by
  induction l generalizing hwm with
  | nil => exact ⟨le_rfl, fun _ h => absurd h not_mem_nil⟩
  | cons j l ih =>
    obtain ⟨hge, hall⟩ := ih (hwmStep dir hwm j)
    refine ⟨Nat.le_trans (le_hwmStep dir hwm j) hge, fun i hi hf => ?_⟩
    cases mem_cons.mp hi with
    | inl h => subst h; exact Nat.le_trans (entryEnd_le_hwmStep hf hwm) hge
    | inr h => exact hall i h hf

theorem dataStart_le_highWater (dir : Bytes) : alfsDataStart ≤ highWater dir :=
  (foldl_hwmStep dir _ _).1

/-- Every file ends at or below the high-water mark. -/
theorem entryEnd_le_highWater (hi : i < alfsMaxFiles) (hf : IsFile dir i) :
    entryEnd dir i ≤ highWater dir :=
  (foldl_hwmStep dir _ _).2 i (by simpa using hi) hf

/-- A bound of every file's end bounds the high-water mark. -/
theorem highWater_le {b : Nat} (hb : alfsDataStart ≤ b)
    (h : ∀ i < alfsMaxFiles, IsFile dir i → entryEnd dir i ≤ b) : highWater dir ≤ b := by
  have hfold : ∀ (l : List Nat) (hwm : Nat), hwm ≤ b → (∀ i ∈ l, i < alfsMaxFiles) →
      l.foldl (hwmStep dir) hwm ≤ b := by
    intro l
    induction l with
    | nil => exact fun _ h _ => h
    | cons i l ih =>
      intro hwm hle hl
      refine ih _ ?_ fun j hj => hl j (mem_cons_of_mem _ hj)
      unfold hwmStep
      split
      · exact hle
      · split
        · exact hle
        · split
          · exact h i (hl i mem_cons_self) ⟨by simp_all, by simp_all⟩
          · exact hle
  exact hfold _ _ hb fun i hi => by simpa using hi

theorem highWater_lt (dir : Bytes) : highWater dir < 2 ^ 32 := by
  have hend : ∀ i, entryEnd dir i < 2 ^ 32 := fun i => Nat.mod_lt _ (by decide)
  have hle : highWater dir ≤ 2 ^ 32 - 1 :=
    highWater_le (by decide) fun i _ _ => Nat.le_sub_one_of_lt (hend i)
  omega

/-! ## what each call can do -/

/-- How `alfs_write` picks its slot: the file of that name, unlinked, or else
the first unused entry.  `base` is the directory it then allocates from. -/
def Chosen (dir : Bytes) (name : CStr) (slot : Nat) (base : Bytes) : Prop :=
  (findEntry dir name = some slot ∧ entryDir dir slot = false ∧ base = setFlags dir slot 0) ∨
  (findEntry dir name = none ∧ firstUnused dir = some slot ∧ base = dir)

theorem Chosen.lt {base : Bytes} (h : Chosen dir name slot base) :
    slot < alfsMaxFiles := by
  obtain ⟨hf, -, -⟩ | ⟨-, hf, -⟩ := h
  · exact (findEntry_eq_some.mp hf).1
  · exact (firstUnused_eq_some.mp hf).1

/-- The slot is out of use in the directory `alfs_write` allocates from, and
the other entries are as before. -/
theorem Chosen.base_spec {base : Bytes} (h : Chosen dir name slot base) :
    entryUsed base slot = false ∧ ∀ j ≠ slot, ∀ k < 64, base (64 * j + k) = dir (64 * j + k) := by
  obtain ⟨-, -, rfl⟩ | ⟨-, hf, rfl⟩ := h
  · refine ⟨?_, fun j hj k hk => setFlags_of_notMem (by omega)⟩
    exact entryUsed_setFlags_zero _ _
  · exact ⟨(firstUnused_eq_some.mp hf).2.1, fun _ _ _ _ => rfl⟩

/-- The outcomes of `alfs_write` once a slot is chosen. -/
inductive WriteOutcome (fs : Fs) (slot : Nat) (name : CStr) (src : Bytes) (size : Nat) :
    Int × Fs → Prop where
  /-- a data transfer failed -/
  | dataFailed (d : Disk) (hdata : writeData src (highWater fs.dir) size fs.disk = (false, d)) :
      WriteOutcome fs slot name src size (-1, { fs with disk := d })
  /-- the data is on disk and the entry filled in, but its sector was not flushed -/
  | flushFailed (d : Disk) (fs' : Fs)
      (hdata : writeData src (highWater fs.dir) size fs.disk = (true, d))
      (hflush : dirFlushSlot { fs with
        disk := d, dir := setEntry fs.dir slot name (highWater fs.dir) size alfsFlagUsed } slot =
          (false, fs')) :
      WriteOutcome fs slot name src size (-1, fs')
  | written (d : Disk) (fs' : Fs)
      (hdata : writeData src (highWater fs.dir) size fs.disk = (true, d))
      (hflush : dirFlushSlot { fs with
        disk := d, dir := setEntry fs.dir slot name (highWater fs.dir) size alfsFlagUsed } slot =
          (true, fs')) :
      WriteOutcome fs slot name src size (slot, fs')

theorem writeSlot_outcome (fs : Fs) (slot : Nat) (name : CStr) (src : Bytes) (size : Nat) :
    WriteOutcome fs slot name src size (writeSlot fs slot name src size) := by
  unfold writeSlot
  simp only
  cases hd : writeData src (highWater fs.dir) size fs.disk with
  | mk ok d =>
    cases ok with
    | false => exact .dataFailed d hd
    | true =>
      dsimp only
      cases hf : dirFlushSlot { fs with
        disk := d, dir := setEntry fs.dir slot name (highWater fs.dir) size alfsFlagUsed } slot with
      | mk ok fs' =>
        cases ok with
        | false => exact .flushFailed d fs' hd hf
        | true => exact .written d fs' hd hf

/-- The directory after `alfs_write`: as it was when the data was written, or
with the entry filled in. -/
theorem WriteOutcome.dir_cases {fs : Fs} {src : Bytes} {r : Int × Fs}
    (h : WriteOutcome fs slot name src size r) :
    r.2.ready = fs.ready ∧
    (r.1 = -1 ∧ r.2.dir = fs.dir ∨
      r.2.dir = setEntry fs.dir slot name (highWater fs.dir) size alfsFlagUsed ∧
      (r.1 = -1 ∨ r.1 = slot)) := by
  cases h with
  | dataFailed d hdata => exact ⟨rfl, .inl ⟨rfl, rfl⟩⟩
  | flushFailed d fs' hdata hflush =>
    obtain ⟨hdir, hready⟩ := flush_keeps hflush
    exact ⟨hready, .inr ⟨hdir, .inl rfl⟩⟩
  | written d fs' hdata hflush =>
    obtain ⟨hdir, hready⟩ := flush_keeps hflush
    exact ⟨hready, .inr ⟨hdir, .inr rfl⟩⟩

/-- `alfs_write` depends on the first `size` bytes of its buffer only. -/
theorem alfsWrite_congr (fs : Fs) (name : Option CStr) {buf buf' : Bytes}
    (h : ∀ k < size, buf k = buf' k) :
    alfsWrite fs name (some buf) size = alfsWrite fs name (some buf') size := by
  have hdata : ∀ lba d, writeData buf lba size d = writeData buf' lba size d :=
    fun _ => writeData_congr h
  cases name with
  | none => rfl
  | some n => simp only [alfsWrite, writeSlot, getD_some, isNone_some, hdata]

/-- `alfs_write` returns -1 at once, or writes into the chosen slot. -/
theorem alfsWrite_cases (fs : Fs) (name : Option CStr) (buf : Option Bytes) (size : Nat) :
    (alfsWrite fs name buf size = (-1, fs) ∧
      (fs.ready → (buf.isNone → size = 0) → ∀ n, name = some n → ∀ slot base,
        ¬Chosen fs.dir n slot base)) ∨
    ∃ n slot base, name = some n ∧ fs.ready ∧ (buf.isNone → size = 0) ∧
      Chosen fs.dir n slot base ∧
      WriteOutcome { fs with dir := base } slot n (buf.getD fun _ => 0) size
        (alfsWrite fs name buf size) := by
  cases name with
  | none => exact .inl ⟨rfl, fun _ _ n h => absurd h (by simp)⟩
  | some n =>
    unfold alfsWrite
    by_cases hguard : (!fs.ready) = true ∨ (buf.isNone = true ∧ size > 0)
    · refine .inl ⟨by simp only [hguard, if_true], fun hr hb => ?_⟩
      obtain h | ⟨hnone, hpos⟩ := hguard
      · simp [hr] at h
      · have := hb hnone; omega
    · have hr : fs.ready := by
        by_contra hno; exact hguard (.inl (by simpa using hno))
      have hb : buf.isNone = true → size = 0 := by
        intro hn; by_contra hs; exact hguard (.inr ⟨hn, by omega⟩)
      simp only [hguard, if_false]
      cases hf : findEntry fs.dir n with
      | some i =>
        cases hdir : entryDir fs.dir i with
        | true =>
          refine .inl ⟨by simp [hdir], fun _ _ n' hn slot base hch => ?_⟩
          cases some.inj hn
          obtain ⟨hf', hd', -⟩ | ⟨hf', -, -⟩ := hch
          · rw [hf] at hf'
            cases some.inj hf'
            rw [hdir] at hd'
            contradiction
          · rw [hf] at hf'; contradiction
        | false =>
          refine .inr ⟨n, i, _, rfl, hr, hb, .inl ⟨hf, hdir, rfl⟩, ?_⟩
          simp only [hdir, Bool.false_eq_true, if_false]
          exact writeSlot_outcome _ _ _ _ _
      | none =>
        cases hu : firstUnused fs.dir with
        | none =>
          refine .inl ⟨rfl, fun _ _ n' hn slot base hch => ?_⟩
          cases some.inj hn
          obtain ⟨hf', -, -⟩ | ⟨-, hf', -⟩ := hch
          · rw [hf] at hf'; contradiction
          · rw [hu] at hf'; contradiction
        | some i =>
          exact .inr ⟨n, i, fs.dir, rfl, hr, hb, .inr ⟨hf, hu, rfl⟩,
            writeSlot_outcome _ _ _ _ _⟩

/-- `alfs_mkdir` returns -1 at once, or fills in the first unused entry and
flushes it. -/
theorem alfsMkdir_cases (fs : Fs) (path : Option CStr) :
    (alfsMkdir fs path = (-1, fs) ∧ (fs.ready → ∀ p, path = some p →
      findEntry fs.dir p ≠ none ∨ firstUnused fs.dir = none)) ∨
    ∃ p slot, path = some p ∧ fs.ready ∧ findEntry fs.dir p = none ∧
      firstUnused fs.dir = some slot ∧
      ∃ ok fs', dirFlushSlot { fs with
          dir := setEntry fs.dir slot p 0 0 (alfsFlagUsed ||| alfsFlagDir) } slot = (ok, fs') ∧
        alfsMkdir fs path = (if ok then (slot : Int) else -1, fs') := by
  cases path with
  | none => exact .inl ⟨rfl, fun _ p h => absurd h (by simp)⟩
  | some p =>
    by_cases hr : fs.ready = true
    · have hno : ¬(!fs.ready) := by simp [hr]
      unfold alfsMkdir
      simp only [hno]
      cases hf : findEntry fs.dir p with
      | some i =>
        refine .inl ⟨by simp, fun _ p' hp => .inl ?_⟩
        rw [← some.inj hp, hf]
        exact some_ne_none i
      | none =>
        cases hu : firstUnused fs.dir with
        | none => exact .inl ⟨by simp, fun _ _ _ => .inr rfl⟩
        | some i =>
          refine .inr ⟨p, i, rfl, hr, hf, rfl, ?_⟩
          cases hfl : dirFlushSlot { fs with
            dir := setEntry fs.dir i p 0 0 (alfsFlagUsed ||| alfsFlagDir) } i with
          | mk ok fs' =>
            cases ok <;> simp [hfl]
    · exact .inl ⟨by simp [alfsMkdir, hr], fun h => absurd h hr⟩

/-- `alfs_delete` returns -1 at once, or clears the flags of the first entry of
that name and flushes it. -/
theorem alfsDelete_cases (fs : Fs) (name : Option CStr) :
    (alfsDelete fs name = (-1, fs) ∧ (fs.ready → ∀ n, name = some n →
      findEntry fs.dir n = none)) ∨
    ∃ n slot, name = some n ∧ fs.ready ∧ findEntry fs.dir n = some slot ∧
      ∃ ok fs', dirFlushSlot { fs with dir := setFlags fs.dir slot 0 } slot = (ok, fs') ∧
        alfsDelete fs name = (if ok then 0 else -1, fs') := by
  cases name with
  | none => exact .inl ⟨rfl, fun _ n h => absurd h (by simp)⟩
  | some n =>
    by_cases hr : fs.ready = true
    · have hno : ¬(!fs.ready) := by simp [hr]
      unfold alfsDelete
      simp only [hno]
      cases hf : findEntry fs.dir n with
      | none => exact .inl ⟨rfl, fun _ n' hn => by rw [← some.inj hn, hf]⟩
      | some i =>
        refine .inr ⟨n, i, rfl, hr, hf, ?_⟩
        cases hfl : dirFlushSlot { fs with dir := setFlags fs.dir i 0 } i with
        | mk ok fs' =>
          cases ok <;> simp [hfl]
    · exact .inl ⟨by simp [alfsDelete, hr], fun h => absurd h hr⟩

/-! ## effects on the disk -/

/-- Outside the directory, `alfs_write` changes no sector but those of the
extent it allocates; once it reaches the entry, the data is there. -/
theorem WriteOutcome.effect {fs : Fs} {src : Bytes} {r : Int × Fs}
    (h : WriteOutcome fs slot name src size r)
    (hslot : slot < alfsMaxFiles) (hend : highWater fs.dir + writtenSectors size ≤ 2 ^ 28) :
    r.2.ready = fs.ready ∧
    (∀ a, 512 * alfsDataStart ≤ a →
      a < 512 * highWater fs.dir ∨ 512 * (highWater fs.dir + writtenSectors size) ≤ a →
      r.2.disk.data a = fs.disk.data a) ∧
    (r.1 = -1 ∧ r.2.dir = fs.dir ∨
      r.2.dir = setEntry fs.dir slot name (highWater fs.dir) size alfsFlagUsed ∧
      (r.1 = -1 ∨ r.1 = slot) ∧
        ∀ k < size, r.2.disk.data (512 * highWater fs.dir + k) = src k) := by
  have hlow := dataStart_le_highWater fs.dir
  obtain ⟨hframe, hstore⟩ := writeData_spec src fs.disk hend
  unfold alfsMaxFiles at hslot
  unfold alfsDataStart at *
  -- the flush of either ending touches one of the sectors 1 to 6 only
  have hflushed : ∀ (d : Disk) (fs' : Fs) (ok : Bool),
      writeData src (highWater fs.dir) size fs.disk = (true, d) →
      dirFlushSlot { fs with
        disk := d, dir := setEntry fs.dir slot name (highWater fs.dir) size alfsFlagUsed } slot =
          (ok, fs') →
      fs'.ready = fs.ready ∧
      (∀ a, 512 * 7 ≤ a →
        a < 512 * highWater fs.dir ∨ 512 * (highWater fs.dir + writtenSectors size) ≤ a →
        fs'.disk.data a = fs.disk.data a) ∧
      fs'.dir = setEntry fs.dir slot name (highWater fs.dir) size alfsFlagUsed ∧
      ∀ k < size, fs'.disk.data (512 * highWater fs.dir + k) = src k := by
    intro d fs' ok hdata hflush
    obtain ⟨hout, -, hdir, hready, -⟩ := dirFlushSlot_spec { fs with
      disk := d, dir := setEntry fs.dir slot name (highWater fs.dir) size alfsFlagUsed } hslot
    rw [hflush] at hout hdir hready
    rw [hdata] at hframe hstore
    refine ⟨hready, fun a hlo ha => ?_, hdir, fun k hk => ?_⟩
    · rw [hout a (by omega)]
      exact hframe a ha
    · rw [hout _ (by omega)]
      exact hstore rfl k hk
  cases h with
  | dataFailed d hdata =>
    rw [hdata] at hframe
    exact ⟨rfl, fun a _ ha => hframe a ha, .inl ⟨rfl, rfl⟩⟩
  | flushFailed d fs' hdata hflush =>
    obtain ⟨hr, hf, hd, hs⟩ := hflushed d fs' false hdata hflush
    exact ⟨hr, hf, .inr ⟨hd, .inl rfl, hs⟩⟩
  | written d fs' hdata hflush =>
    obtain ⟨hr, hf, hd, hs⟩ := hflushed d fs' true hdata hflush
    exact ⟨hr, hf, .inr ⟨hd, .inr rfl, hs⟩⟩

end AliOS
