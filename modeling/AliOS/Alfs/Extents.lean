import AliOS.Alfs.Directory

/-!
# AliOS.Alfs.Extents

Files do not overlap and do not disturb each other.  `WellFormed` says that
every file starts behind the directory and that no sector belongs to two files;
every sequence of calls keeps it, whichever transfers fail, and a call changes
what `alfs_read` returns for no entry but the one it writes or deletes.

The allocator is `high_water`, computed in 32-bit arithmetic: it is the end of
the last file only while `size + 511` does not wrap.  `Sane` collects what a
directory must satisfy for that: sectors below 2^28, no file within 511 bytes
of 4 GB, and no data behind a directory entry.  The last section shows what
happens without it.
-/

namespace AliOS

open Lib

variable {dir' dir base : Bytes} {i j : Nat}

/-! ## calls and runs -/

/-- The calls that change the file system. -/
inductive AlfsCall where
  | write (name : Option CStr) (buf : Option Bytes) (size : UInt32)
  | mkdir (path : Option CStr)
  | delete (name : Option CStr)

def AlfsCall.exec : AlfsCall → Fs → Int × Fs
  | .write name buf size, fs => alfsWrite fs name buf size.toNat
  | .mkdir path, fs => alfsMkdir fs path
  | .delete name, fs => alfsDelete fs name

/-- The same state with `o` as the fate of the transfers to come. -/
def Fs.withScript (fs : Fs) (o : List AtaOutcome) : Fs :=
  { fs with disk := { fs.disk with script := o } }

/-- Run a call whose transfers end as `o` says. -/
def AlfsCall.run (c : AlfsCall) (o : List AtaOutcome) (fs : Fs) : Int × Fs :=
  c.exec (fs.withScript o)

/-- The slot a call writes or deletes, if it uses one that was in use. -/
def AlfsCall.slot (dir : Bytes) : AlfsCall → Option Nat
  | .write (some n) _ _ => findEntry dir n
  | .delete (some n) => findEntry dir n
  | _ => none

/-- The states reached from `fs₀` by calls that satisfy `ok`. -/
inductive AlfsRun (ok : Fs → List AtaOutcome → AlfsCall → Prop) (fs₀ : Fs) : Fs → Prop where
  | nil : AlfsRun ok fs₀ fs₀
  | call {fs : Fs} (o : List AtaOutcome) (c : AlfsCall) :
      AlfsRun ok fs₀ fs → ok fs o c → AlfsRun ok fs₀ (c.run o fs).2

/-! ## well-formed directories -/

/-- Sector `t` belongs to entry `i`. -/
def InExtent (dir : Bytes) (i t : Nat) : Prop :=
  entryStart dir i ≤ t ∧ t < entryStart dir i + sectorsOf (entrySize dir i)

/-- Files start behind the directory, and no sector belongs to two of them. -/
structure WellFormed (dir : Bytes) : Prop where
  start : ∀ i < alfsMaxFiles, IsFile dir i → alfsDataStart ≤ entryStart dir i
  disjoint : ∀ i < alfsMaxFiles, ∀ j < alfsMaxFiles, i ≠ j → IsFile dir i → IsFile dir j →
    ∀ t, ¬(InExtent dir i t ∧ InExtent dir j t)

/-- Largest size for which `size + 511` does not wrap. -/
def sizeLimit : Nat := 2 ^ 32 - 512

/-- What the 32-bit allocator and the 28-bit drive need. -/
structure Sane (dir : Bytes) : Prop where
  sectors : ∀ i < alfsMaxFiles, IsFile dir i →
    entryStart dir i + sectorsOf (entrySize dir i) ≤ 2 ^ 28
  sizes : ∀ i < alfsMaxFiles, IsFile dir i → entrySize dir i ≤ sizeLimit
  dirs : ∀ i < alfsMaxFiles, entryUsed dir i = true → entryDir dir i = true → entrySize dir i = 0

/-- The extent a write would allocate ends below sector 2^28, and its size is
within the limit. -/
def Fits (dir : Bytes) : AlfsCall → Prop
  | .write (some n) _ size => size.toNat ≤ sizeLimit ∧
      ∀ slot base, Chosen dir n slot base → highWater base + writtenSectors size.toNat ≤ 2 ^ 28
  | _ => True

/-- `dir'` has no used entry that `dir` has not. -/
def SubDir (dir' dir : Bytes) : Prop :=
  ∀ i < alfsMaxFiles, entryUsed dir' i = true →
    entryUsed dir i = true ∧ entryDir dir' i = entryDir dir i ∧
      entryStart dir' i = entryStart dir i ∧ entrySize dir' i = entrySize dir i

/-- Entry `i` of `dir'` is a file of `dir`, too, with the same extent. -/
def SameExtent (dir' dir : Bytes) (i : Nat) : Prop :=
  IsFile dir i ∧ entryStart dir' i = entryStart dir i ∧ entrySize dir' i = entrySize dir i

/-- The files of `dir'` are files of `dir`. -/
def SubFiles (dir' dir : Bytes) : Prop := ∀ i < alfsMaxFiles, IsFile dir' i → SameExtent dir' dir i

theorem SubDir.files (h : SubDir dir' dir) : SubFiles dir' dir := fun i hi hf => by
  obtain ⟨hu, hd, hs, hz⟩ := h i hi hf.1
  exact ⟨⟨hu, hd ▸ hf.2⟩, hs, hz⟩

theorem SubDir.highWater_le (h : SubDir dir' dir) : highWater dir' ≤ highWater dir := by
  refine AliOS.highWater_le (dataStart_le_highWater dir) fun i hi hf => ?_
  obtain ⟨hf', hs, hz⟩ := h.files i hi hf
  have hend : entryEnd dir' i = entryEnd dir i := by rw [entryEnd, hs, hz, entryEnd]
  rw [hend]
  exact entryEnd_le_highWater hi hf'

theorem WellFormed.sub (h : WellFormed dir) (hsub : SubFiles dir' dir) : WellFormed dir' where
  start := fun i hi hf => by
    obtain ⟨hf', hs, -⟩ := hsub i hi hf
    rw [hs]
    exact h.start i hi hf'
  disjoint := fun i hi j hj hne hfi hfj t => by
    obtain ⟨hfi', hsi, hzi⟩ := hsub i hi hfi
    obtain ⟨hfj', hsj, hzj⟩ := hsub j hj hfj
    unfold InExtent
    rw [hsi, hzi, hsj, hzj]
    exact h.disjoint i hi j hj hne hfi' hfj' t

theorem Sane.subFiles (h : Sane dir) (hsub : SubFiles dir' dir)
    (hdirs : ∀ i < alfsMaxFiles, entryUsed dir' i → entryDir dir' i → entrySize dir' i = 0) :
    Sane dir' where
  sectors := fun i hi hf => by
    obtain ⟨hf', hs, hz⟩ := hsub i hi hf
    rw [hs, hz]
    exact h.sectors i hi hf'
  sizes := fun i hi hf => by
    obtain ⟨hf', -, hz⟩ := hsub i hi hf
    rw [hz]
    exact h.sizes i hi hf'
  dirs := hdirs

theorem Sane.sub (h : Sane dir) (hsub : SubDir dir' dir) : Sane dir' :=
  h.subFiles hsub.files fun i hi hu hd => by
    obtain ⟨hu', hd', -, hz⟩ := hsub i hi hu
    rw [hz]
    exact h.dirs i hi hu' (hd' ▸ hd)

theorem sub_setFlags_zero (dir : Bytes) (slot : Nat) : SubDir (setFlags dir slot 0) dir := by
  intro i _ hu
  have hne : i ≠ slot := by
    intro h
    rw [h, entryUsed_setFlags_zero] at hu
    cases hu
  have hflags : entryFlags (setFlags dir slot 0) i = entryFlags dir i := by
    rw [entryFlags_setFlags (by decide), if_neg hne]
  obtain ⟨hu', hd'⟩ := entryUsed_congr hflags
  exact ⟨hu' ▸ hu, hd', entryStart_setFlags _ _ _ _, entrySize_setFlags _ _ _ _⟩

theorem Chosen.sub {n : CStr} {slot : Nat} (h : Chosen dir n slot base) :
    SubDir base dir := by
  obtain ⟨-, -, rfl⟩ | ⟨-, -, rfl⟩ := h
  · exact sub_setFlags_zero dir slot
  · exact fun _ _ hu => ⟨hu, rfl, rfl, rfl⟩

/-- In a sane directory the 32-bit end of an extent is its end. -/
theorem Sane.entryEnd_eq (h : Sane dir) (hi : i < alfsMaxFiles) (hf : IsFile dir i) :
    entryEnd dir i = entryStart dir i + sectorsOf (entrySize dir i) := by
  have hs := h.sectors i hi hf
  have hz := h.sizes i hi hf
  unfold sizeLimit at hz
  unfold entryEnd sectorsOf at *
  rw [Nat.mod_eq_of_lt (by omega), Nat.mod_eq_of_lt (by omega)]

/-- Every file of a sane directory ends at or below the high-water mark. -/
theorem Sane.extent_le (h : Sane dir) (hi : i < alfsMaxFiles) (hf : IsFile dir i) :
    entryStart dir i + sectorsOf (entrySize dir i) ≤ highWater dir := by
  rw [← h.entryEnd_eq hi hf]
  exact entryEnd_le_highWater hi hf

/-! ## filling in an entry -/

section

variable {slot start size flags : Nat} {name : CStr}

/-- The files beside the entry that is filled in are those of before. -/
theorem isFile_setEntry (hne : i ≠ slot)
    (hf : IsFile (setEntry base slot name start size flags) i) :
    SameExtent (setEntry base slot name start size flags) base i := by
  obtain ⟨hst, hsz, hfl⟩ := entry_congr (setEntry_other base hne name start size flags)
  obtain ⟨hu, hd⟩ := entryUsed_congr hfl
  exact ⟨⟨hu ▸ hf.1, hd ▸ hf.2⟩, hst, hsz⟩

theorem Sane.dirs_setEntry (h : Sane base) (hi : i < alfsMaxFiles) (hne : i ≠ slot)
    (hu : entryUsed (setEntry base slot name start size flags) i)
    (hd : entryDir (setEntry base slot name start size flags) i) :
    entrySize (setEntry base slot name start size flags) i = 0 := by
  obtain ⟨-, hsz, hfl⟩ := entry_congr (setEntry_other base hne name start size flags)
  obtain ⟨hu', hd'⟩ := entryUsed_congr hfl
  rw [hsz]
  exact h.dirs i hi (hu' ▸ hu) (hd' ▸ hd)

/-- The new file of a write keeps the directory well formed: its extent starts
at the high-water mark, where every other file has ended. -/
theorem WellFormed.setFile (h : WellFormed base) (hs : Sane base) (hsize : size ≤ sizeLimit) :
    WellFormed (setEntry base slot name (highWater base) size alfsFlagUsed) := by
  obtain ⟨hst, -⟩ := setEntry_self base slot name (highWater_lt base)
    (show size < 2 ^ 32 by unfold sizeLimit at hsize; omega) (show alfsFlagUsed < 2 ^ 32 by decide)
  have hfar : ∀ i < alfsMaxFiles, i ≠ slot →
      IsFile (setEntry base slot name (highWater base) size alfsFlagUsed) i → ∀ t,
      InExtent (setEntry base slot name (highWater base) size alfsFlagUsed) i t →
        IsFile base i ∧ InExtent base i t ∧ t < highWater base := by
    intro i hi hne hf t ht
    obtain ⟨hf', hs', hz'⟩ := isFile_setEntry hne hf
    unfold InExtent at *
    rw [hs', hz'] at ht
    have hle := hs.extent_le hi hf'
    exact ⟨hf', ht, by omega⟩
  refine ⟨fun i hi hf => ?_, fun i hi j hj hne hfi hfj t ⟨hti, htj⟩ => ?_⟩
  · by_cases hslot : i = slot
    · rw [hslot, hst]
      exact dataStart_le_highWater base
    · obtain ⟨hf', hs', -⟩ := isFile_setEntry hslot hf
      rw [hs']
      exact h.start i hi hf'
  · by_cases hislot : i = slot
    · have := hfar j hj (by omega) hfj t htj
      rw [InExtent, hislot, hst] at hti
      omega
    · obtain ⟨hfi', hti', hlt⟩ := hfar i hi hislot hfi t hti
      by_cases hjslot : j = slot
      · rw [InExtent, hjslot, hst] at htj
        omega
      · obtain ⟨hfj', htj', -⟩ := hfar j hj hjslot hfj t htj
        exact h.disjoint i hi j hj hne hfi' hfj' t ⟨hti', htj'⟩

theorem Sane.setFile (hs : Sane base) (hsize : size ≤ sizeLimit)
    (hend : highWater base + writtenSectors size ≤ 2 ^ 28) :
    Sane (setEntry base slot name (highWater base) size alfsFlagUsed) := by
  obtain ⟨hst, hsz, hfl, -⟩ := setEntry_self base slot name (highWater_lt base)
    (show size < 2 ^ 32 by unfold sizeLimit at hsize; omega) (show alfsFlagUsed < 2 ^ 32 by decide)
  have hwritten := sectorsOf_le_writtenSectors size
  refine ⟨fun i hi hf => ?_, fun i hi hf => ?_, fun i hi hu hd => ?_⟩ <;> by_cases hslot : i = slot
  · rw [hslot, hst, hsz]
    omega
  · obtain ⟨hf', hs', hz'⟩ := isFile_setEntry hslot hf
    rw [hs', hz']
    exact hs.sectors i hi hf'
  · rw [hslot, hsz]
    exact hsize
  · obtain ⟨hf', -, hz'⟩ := isFile_setEntry hslot hf
    rw [hz']
    exact hs.sizes i hi hf'
  · rw [hslot, (entryUsed_of_flags hfl).2] at hd
    exact absurd hd (by decide)
  · exact hs.dirs_setEntry hi hslot hu hd

end

/-- A new directory entry has no data. -/
theorem setDir_self (base : Bytes) (slot : Nat) (name : CStr) :
    entryDir (setEntry base slot name 0 0 (alfsFlagUsed ||| alfsFlagDir)) slot ∧
      entrySize (setEntry base slot name 0 0 (alfsFlagUsed ||| alfsFlagDir)) slot = 0 := by
  obtain ⟨-, hsz, hfl, -⟩ := setEntry_self base slot name (show 0 < 2 ^ 32 by decide)
    (show 0 < 2 ^ 32 by decide) (show alfsFlagUsed ||| alfsFlagDir < 2 ^ 32 by decide)
  rw [(entryUsed_of_flags hfl).2]
  exact ⟨rfl, hsz⟩

/-- Filling in a directory entry adds no file. -/
theorem subFiles_setDir (base : Bytes) (slot : Nat) (name : CStr) :
    SubFiles (setEntry base slot name 0 0 (alfsFlagUsed ||| alfsFlagDir)) base := by
  intro i _ hf
  by_cases hslot : i = slot
  · have hdir := hf.2
    rw [hslot, (setDir_self base slot name).1] at hdir
    cases hdir
  · exact isFile_setEntry hslot hf

theorem Sane.setDir {slot : Nat} {name : CStr} (h : Sane base) :
    Sane (setEntry base slot name 0 0 (alfsFlagUsed ||| alfsFlagDir)) :=
  h.subFiles (subFiles_setDir _ _ _) fun i hi hu hd => by
    by_cases hslot : i = slot
    · rw [hslot, (setDir_self base slot name).2]
    · exact h.dirs_setEntry hi hslot hu hd

/-! ## reads that do not change -/

theorem alfsRead_empty (fs : Fs) (hr : fs.ready) (hi : i < alfsMaxFiles)
    (hused : entryUsed fs.dir i) (hz : entrySize fs.dir i = 0) (max : Nat) :
    alfsRead fs i max = (some [], fs) := by
  rw [alfsRead_eq, if_pos (Fs.has_natCast hr hi hused), Int.toNat_natCast, hz, Nat.zero_min]
  simp [readBytes, readSectors]

/-- A used entry reads as before when its 64 bytes and its sectors are as before. -/
theorem alfsRead_congr {fs fs' : Fs} (hr : fs.ready) (hr' : fs'.ready) (hj : j < alfsMaxFiles)
    (hu : entryUsed fs.dir j)
    (hlba : entrySize fs.dir j = 0 ∨ entryStart fs.dir j + sectorsOf (entrySize fs.dir j) ≤ 2 ^ 28)
    (hent : ∀ k < 64, fs'.dir (64 * j + k) = fs.dir (64 * j + k))
    (hdata : ∀ k < entrySize fs.dir j, fs'.disk.data (512 * entryStart fs.dir j + k) =
      fs.disk.data (512 * entryStart fs.dir j + k))
    (max : Nat) :
    (alfsRead fs'.quiet j max).1 = (alfsRead fs.quiet j max).1 := by
  obtain ⟨hstart, hsize, hflags⟩ := entry_congr hent
  have hu' : entryUsed fs'.dir j := (entryUsed_congr hflags).1.trans hu
  by_cases hz : entrySize fs.dir j = 0
  · rw [alfsRead_empty fs.quiet hr hj hu hz max,
      alfsRead_empty fs'.quiet hr' hj hu' (hsize.trans hz) max]
  · have hlba : entryStart fs.dir j + sectorsOf (entrySize fs.dir j) ≤ 2 ^ 28 :=
      hlba.resolve_left hz
    have hlba' : entryStart fs'.dir j + sectorsOf (entrySize fs'.dir j) ≤ 2 ^ 28 := by
      rw [hstart, hsize]; exact hlba
    rw [alfsRead_quiet fs.quiet rfl hr hj hu hlba max,
      alfsRead_quiet fs'.quiet rfl hr' hj hu' hlba' max]
    show some (slice fs'.disk.data (512 * entryStart fs'.dir j) (min (entrySize fs'.dir j) max)) =
      some (slice fs.disk.data (512 * entryStart fs.dir j) (min (entrySize fs.dir j) max))
    rw [hstart, hsize]
    congr 1
    exact slice_congr fun k hk => hdata k (by omega)

/-- In a sane directory only files have data. -/
theorem Sane.isFile (h : Sane dir) (hj : j < alfsMaxFiles) (hu : entryUsed dir j)
    (hz : entrySize dir j ≠ 0) : IsFile dir j := by
  refine ⟨hu, ?_⟩
  cases hd : entryDir dir j with
  | false => rfl
  | true => exact absurd (h.dirs j hj hu hd) hz

/-! ## one call -/

/-- Entry `j` and its data are as before. -/
def Undisturbed (fs fs' : Fs) (j : Nat) : Prop :=
  (∀ k < 64, fs'.dir (64 * j + k) = fs.dir (64 * j + k)) ∧
  (IsFile fs.dir j → ∀ a, 512 * entryStart fs.dir j ≤ a →
    a < 512 * (entryStart fs.dir j + sectorsOf (entrySize fs.dir j)) →
    fs'.disk.data a = fs.disk.data a)

/-- What a call owes to the rest of the file system. -/
structure Keeps (c : AlfsCall) (fs fs' : Fs) : Prop where
  ready : fs'.ready = fs.ready
  wellFormed : WellFormed fs'.dir
  sane : Sane fs'.dir
  others : ∀ j < alfsMaxFiles, entryUsed fs.dir j = true → c.slot fs.dir ≠ some j →
    Undisturbed fs fs' j

theorem Keeps.refl {c : AlfsCall} {fs : Fs} (hw : WellFormed fs.dir) (hs : Sane fs.dir) :
    Keeps c fs fs :=
  ⟨rfl, hw, hs, fun _ _ _ _ => ⟨fun _ _ => rfl, fun _ _ _ _ => rfl⟩⟩

/-- A flush of slot `i` leaves every file's sectors alone. -/
theorem flush_undisturbed {fs : Fs} {ok : Bool} {fs' : Fs} (hi : i < alfsMaxFiles)
    (hflush : dirFlushSlot { fs with dir := dir } i = (ok, fs')) (hw : WellFormed fs.dir)
    (hj : j < alfsMaxFiles) (hent : ∀ k < 64, dir (64 * j + k) = fs.dir (64 * j + k)) :
    Undisturbed fs fs' j := by
  obtain ⟨hout, -, hdir, -, -⟩ := dirFlushSlot_spec { fs with dir := dir } hi
  rw [hflush] at hout hdir
  refine ⟨fun k hk => ?_, fun hf a hlo _ => hout a ?_⟩
  · rw [hdir]; exact hent k hk
  · have hstart := hw.start j hj hf
    unfold alfsDataStart at hstart
    unfold alfsMaxFiles at hi
    omega

theorem keeps_write (fs : Fs) (hw : WellFormed fs.dir) (hs : Sane fs.dir) {name : Option CStr}
    {buf : Option Bytes} {size : UInt32} (hfits : Fits fs.dir (.write name buf size)) :
    Keeps (.write name buf size) fs (alfsWrite fs name buf size.toNat).2 := by
  obtain ⟨heq, -⟩ | ⟨n, slot, base, rfl, -, -, hch, hout⟩ := alfsWrite_cases fs name buf size.toNat
  · rw [heq]; exact .refl hw hs
  · have hwb := hw.sub hch.sub.files
    have hsb := hs.sub hch.sub
    have hend := hfits.2 slot base hch
    obtain ⟨hready, hframe, hdir⟩ := hout.effect hch.lt hend
    dsimp only at hready hframe hdir
    refine ⟨hready, ?_, ?_, fun j hj hu hslot => ?_⟩
    · obtain ⟨-, h⟩ | ⟨h, -, -⟩ := hdir
      · rw [h]; exact hwb
      · rw [h]; exact hwb.setFile hsb hfits.1
    · obtain ⟨-, h⟩ | ⟨h, -, -⟩ := hdir
      · rw [h]; exact hsb
      · rw [h]; exact hsb.setFile hfits.1 hend
    · -- a used entry that is not the one overwritten is not the chosen slot
      have hne : j ≠ slot := by
        rintro rfl
        obtain ⟨hf, -, -⟩ | ⟨-, hf, -⟩ := hch
        · exact hslot hf
        · rw [(firstUnused_eq_some.mp hf).2.1] at hu
          contradiction
      have hbase := hch.base_spec.2 j hne
      refine ⟨fun k hk => ?_, fun hf a hlo hhi => hframe a ?_ (.inl ?_)⟩
      · obtain ⟨-, h⟩ | ⟨h, -, -⟩ := hdir
        · rw [h]; exact hbase k hk
        · rw [h, setEntry_other base hne n _ _ _ k hk]; exact hbase k hk
      · have hstart := hw.start j hj hf
        omega
      · obtain ⟨hst, hsz, hfl⟩ := entry_congr hbase
        obtain ⟨hu', hd'⟩ := entryUsed_congr hfl
        have hle := hsb.extent_le hj ⟨hu'.trans hf.1, hd'.trans hf.2⟩
        rw [hst, hsz] at hle
        omega

theorem keeps_mkdir (fs : Fs) (hw : WellFormed fs.dir) (hs : Sane fs.dir) (path : Option CStr) :
    Keeps (.mkdir path) fs (alfsMkdir fs path).2 := by
  obtain ⟨heq, -⟩ | ⟨p, slot, rfl, -, -, hslot, ok, fs', hflush, heq⟩ := alfsMkdir_cases fs path
  · rw [heq]; exact .refl hw hs
  · obtain ⟨hlt, hunused, -⟩ := firstUnused_eq_some.mp hslot
    obtain ⟨hdir, hready⟩ := flush_keeps hflush
    rw [heq]
    refine ⟨hready, ?_, ?_, fun j hj hu _ => flush_undisturbed hlt hflush hw hj ?_⟩
    · rw [hdir]; exact hw.sub (subFiles_setDir _ _ _)
    · rw [hdir]; exact hs.setDir
    · have hne : j ≠ slot := by
        rintro rfl
        rw [hunused] at hu
        contradiction
      exact setEntry_other fs.dir hne p _ _ _

theorem keeps_delete (fs : Fs) (hw : WellFormed fs.dir) (hs : Sane fs.dir) (name : Option CStr) :
    Keeps (.delete name) fs (alfsDelete fs name).2 := by
  obtain ⟨heq, -⟩ | ⟨n, slot, rfl, -, hfind, ok, fs', hflush, heq⟩ := alfsDelete_cases fs name
  · rw [heq]; exact .refl hw hs
  · have hlt := (findEntry_eq_some.mp hfind).1
    obtain ⟨hdir, hready⟩ := flush_keeps hflush
    rw [heq]
    refine ⟨hready, ?_, ?_, fun j hj _ hne => flush_undisturbed hlt hflush hw hj ?_⟩
    · rw [hdir]; exact hw.sub (sub_setFlags_zero _ _).files
    · rw [hdir]; exact hs.sub (sub_setFlags_zero _ _)
    · have hne' : j ≠ slot := by
        rintro rfl
        exact hne hfind
      exact fun k hk => setFlags_of_notMem (by omega)

/-- **One call** keeps the directory well formed and every other entry as it
was, whichever transfers fail. -/
theorem keeps_run {fs : Fs} (hw : WellFormed fs.dir) (hs : Sane fs.dir) {c : AlfsCall}
    (hfits : Fits fs.dir c) (o : List AtaOutcome) : Keeps c fs (c.run o fs).2 := by
  -- the script of outcomes is the only thing `run` changes before the call
  have hscript : ∀ {fs' : Fs}, Keeps c (fs.withScript o) fs' → Keeps c fs fs' :=
    fun h => ⟨h.ready, h.wellFormed, h.sane, h.others⟩
  apply hscript
  cases c with
  | write name buf size => exact keeps_write (fs.withScript o) hw hs hfits
  | mkdir path => exact keeps_mkdir (fs.withScript o) hw hs path
  | delete name => exact keeps_delete (fs.withScript o) hw hs name

/-- A write that returns a slot can be read back from it. -/
theorem write_reads_back (fs : Fs) {name : Option CStr} {buf : Option Bytes} {size : UInt32}
    (hfits : Fits fs.dir (.write name buf size))
    (hret : 0 ≤ (alfsWrite fs name buf size.toNat).1) {max : Nat} (hmax : size.toNat ≤ max) :
    (alfsRead (alfsWrite fs name buf size.toNat).2.quiet (alfsWrite fs name buf size.toNat).1
      max).1 =
      some (slice (buf.getD fun _ => 0) 0 size.toNat) := by
  obtain ⟨heq, -⟩ | ⟨n, slot, base, rfl, hr, -, hch, hout⟩ := alfsWrite_cases fs name buf size.toNat
  · rw [heq] at hret
    exact absurd hret (by simp)
  · have hend := hfits.2 slot base hch
    obtain ⟨hready, -, hdir⟩ := hout.effect hch.lt hend
    generalize alfsWrite fs (some n) buf size.toNat = r at *
    have hwritten := sectorsOf_le_writtenSectors size.toNat
    obtain ⟨h, -⟩ | ⟨hd, hret', hstore⟩ := hdir
    · omega
    · have hslot : r.1 = (slot : Int) := by omega
      obtain ⟨hst, hsz, hfl, -⟩ := setEntry_self base slot n (highWater_lt base)
        size.toNat_lt (show alfsFlagUsed < 2 ^ 32 by decide)
      rw [← hd] at hst hsz hfl
      rw [hslot, alfsRead_quiet r.2.quiet rfl (hready.trans hr) hch.lt
        ((entryUsed_of_flags hfl).1.trans rfl)
        (show entryStart r.2.dir slot + sectorsOf (entrySize r.2.dir slot) ≤ 2 ^ 28 by
          rw [hst, hsz]; omega)]
      show some (slice r.2.disk.data (512 * entryStart r.2.dir slot)
        (min (entrySize r.2.dir slot) max)) = _
      rw [hst, hsz, Nat.min_eq_left hmax]
      congr 1
      refine slice_congr fun k hk => ?_
      rw [hstore k hk, Nat.zero_add]

/-! ## runs -/

/-- The invariant of a run. -/
theorem AlfsRun.good {fs₀ fs : Fs} (hr : fs₀.ready) (hw : WellFormed fs₀.dir)
    (hs : Sane fs₀.dir) (hrun : AlfsRun (fun fs _ c => Fits fs.dir c) fs₀ fs) :
    fs.ready ∧ WellFormed fs.dir ∧ Sane fs.dir := by
  induction hrun with
  | nil => exact ⟨hr, hw, hs⟩
  | call o c _ hfits ih =>
    obtain ⟨hr, hw, hs⟩ := ih
    have h := keeps_run hw hs hfits o
    exact ⟨h.ready.trans hr, h.wellFormed, h.sane⟩

/-- **Extents and contents**: from a well-formed, sane directory every sequence
of calls that fit, with any pattern of failing transfers, keeps the directory
well formed; in every state reached, a write that returns a slot reads back as
the buffer, and no call changes what `alfs_read` returns for a used slot other
than the one it writes or deletes. -/
theorem alfs_extents_and_contents {fs₀ fs : Fs} (hr : fs₀.ready = true) (hw : WellFormed fs₀.dir)
    (hs : Sane fs₀.dir) (hrun : AlfsRun (fun fs _ c => Fits fs.dir c) fs₀ fs) :
    WellFormed fs.dir ∧
    ∀ (o : List AtaOutcome) (c : AlfsCall), Fits fs.dir c →
      WellFormed (c.run o fs).2.dir ∧
      (∀ name buf size, c = .write name buf size → 0 ≤ (c.run o fs).1 → ∀ max, size.toNat ≤ max →
        (alfsRead (c.run o fs).2.quiet (c.run o fs).1 max).1 =
          some (slice (buf.getD fun _ => 0) 0 size.toNat)) ∧
      ∀ j < alfsMaxFiles, entryUsed fs.dir j = true → c.slot fs.dir ≠ some j → ∀ max,
        (alfsRead (c.run o fs).2.quiet j max).1 = (alfsRead fs.quiet j max).1 := by
  obtain ⟨hr, hw, hs⟩ := hrun.good hr hw hs
  refine ⟨hw, fun o c hfits => ?_⟩
  have hkeeps := keeps_run hw hs hfits o
  refine ⟨hkeeps.wellFormed, ?_, fun j hj hu hslot max => ?_⟩
  · rintro name buf size rfl hret max hmax
    exact write_reads_back (fs.withScript o) hfits hret hmax
  · obtain ⟨hent, hdata⟩ := hkeeps.others j hj hu hslot
    have hlba : entrySize fs.dir j = 0 ∨
        entryStart fs.dir j + sectorsOf (entrySize fs.dir j) ≤ 2 ^ 28 := by
      by_cases hz : entrySize fs.dir j = 0
      · exact .inl hz
      · exact .inr (hs.sectors j hj (hs.isFile hj hu hz))
    refine alfsRead_congr hr (hkeeps.ready.trans hr) hj hu hlba hent (fun k hk => ?_) max
    exact hdata (hs.isFile hj hu (by omega)) _ (by omega) (by unfold sectorsOf; omega)

/-! ## an empty file system, and one whose allocator wraps -/

def letterA : CStr := ⟨[97], by simp⟩
def letterB : CStr := ⟨[98], by simp⟩

/-- A mounted file system over an empty drive. -/
def blankFs (dir : Bytes) : Fs where
  ready := true
  super := fun _ => 0
  dir := dir
  disk := ⟨fun _ => 0, []⟩

theorem entryUsed_blank : ∀ i < alfsMaxFiles, entryUsed (fun _ => 0) i = false := by
  decide +kernel

/-- A new name in a directory without files is given sector 7. -/
theorem fits_of_find_none {n : CStr} {buf : Option Bytes} {size : UInt32}
    (hfind : findEntry dir n = none)
    (hsize : size.toNat ≤ sizeLimit) (hend : highWater dir + writtenSectors size.toNat ≤ 2 ^ 28) :
    Fits dir (.write (some n) buf size) := by
  refine ⟨hsize, fun slot base hch => ?_⟩
  obtain ⟨hf, -, -⟩ | ⟨-, -, rfl⟩ := hch
  · rw [hfind] at hf; contradiction
  · exact hend

theorem alfs_extents_and_contents_two_files :
    let fs := ((AlfsCall.write (some letterA) (some fun _ => 1) 3).run [] (blankFs fun _ => 0)).2
    WellFormed fs.dir ∧
      (alfsRead ((AlfsCall.write (some letterB) (some fun _ => 2) 600).run [] fs).2.quiet 0 3).1 =
        (alfsRead fs.quiet 0 3).1 := by
  have hno : ∀ i < alfsMaxFiles, ¬IsFile (fun _ => 0) i := fun i hi hf => by
    rw [IsFile, entryUsed_blank i hi] at hf
    exact absurd hf.1 (by decide)
  have h := alfs_extents_and_contents (show (blankFs fun _ => 0).ready = true from rfl)
    ⟨fun i hi hf => absurd hf (hno i hi), fun i hi _ _ _ hf => absurd hf (hno i hi)⟩
    ⟨fun i hi hf => absurd hf (hno i hi), fun i hi hf => absurd hf (hno i hi),
      fun i hi hu => by rw [blankFs, entryUsed_blank i hi] at hu; contradiction⟩
    (.call [] (.write (some letterA) (some fun _ => 1) 3) .nil
      (fits_of_find_none (by decide +kernel) (by decide +kernel) (by decide +kernel)))
  obtain ⟨hw, hcall⟩ := h
  refine ⟨hw, ?_⟩
  exact (hcall [] (.write (some letterB) (some fun _ => 2) 600)
    (fits_of_find_none (by decide +kernel) (by decide +kernel) (by decide +kernel))).2.2
    0 (by decide) (by decide +kernel) (by decide +kernel) 3

/-- One file of 2^32 - 1 bytes at sector 7: `size + 511` wraps to 510, so
`high_water` takes it for empty. -/
def wrapDir : Bytes := setEntry (fun _ => 0) 0 letterA 7 0xFFFFFFFF alfsFlagUsed

/-- The next file is then put on top of it. -/
theorem alfs_extents_overlap :
    let c := AlfsCall.write (some letterB) (some fun _ => 1) 1
    WellFormed wrapDir ∧
    (∀ i < alfsMaxFiles, IsFile wrapDir i →
      entryStart wrapDir i + sectorsOf (entrySize wrapDir i) ≤ 2 ^ 28) ∧
    highWater wrapDir + writtenSectors 1 ≤ 2 ^ 28 ∧
    (c.run [] (blankFs wrapDir)).1 = 1 ∧ ¬WellFormed (c.run [] (blankFs wrapDir)).2.dir ∧
    entryUsed wrapDir 0 = true ∧ c.slot wrapDir ≠ some 0 ∧
    (alfsRead (c.run [] (blankFs wrapDir)).2.quiet 0 1).1 ≠
      (alfsRead (blankFs wrapDir).quiet 0 1).1 := by
  have hone : ∀ i < alfsMaxFiles, entryUsed wrapDir i = true → i = 0 := by decide +kernel
  refine ⟨⟨fun i hi hf => ?_, fun i hi j hj hne hfi hfj => ?_⟩, fun i hi hf => ?_,
    by decide +kernel,
    by decide +kernel, fun h => ?_, by decide +kernel, by decide +kernel, by decide +kernel⟩
  · rw [hone i hi hf.1]; decide +kernel
  · exact absurd ((hone i hi hfi.1).trans (hone j hj hfj.1).symm) hne
  · rw [hone i hi hf.1]; decide +kernel
  · refine h.disjoint 0 (by decide) 1 (by decide) (by decide) ⟨?_, ?_⟩ ⟨?_, ?_⟩ 7
      ⟨⟨?_, ?_⟩, ⟨?_, ?_⟩⟩ <;> decide +kernel

end AliOS
