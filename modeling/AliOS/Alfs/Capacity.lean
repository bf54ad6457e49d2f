import AliOS.Mkfs

/-!
# AliOS.Alfs.Capacity

The end of the disk.  The superblock says how many sectors there are; `mkfs` checks each file
against that number, but `alfs_write` never looks at it and allocates at the high-water mark,
which deleted files do not lower unless they were the last ones.  Writes that end before the
end of the disk keep everything inside; nothing in the kernel stops the others.
-/

namespace AliOS

open Lib

/-! ## inside the disk -/

/-- `fs_super.total_sects`. -/
def totalSects (fs : Fs) : Nat := load32 fs.super 20

/-- Every file lies between the directory and the end of the disk. -/
def WithinDisk (total : Nat) (dir : Bytes) : Prop :=
  ∀ i < alfsMaxFiles, IsFile dir i →
    alfsDataStart ≤ entryStart dir i ∧ entryStart dir i + sectorsOf (entrySize dir i) ≤ total

/-- The sectors that a call would write for a file end before the end of the disk. -/
def EndsInside (total : Nat) (dir : Bytes) : AlfsCall → Prop
  | .write (some n) _ size =>
    ∀ slot base, Chosen dir n slot base → highWater base + writtenSectors size.toNat ≤ total
  | _ => True

/-- A file of this size does not fit behind the others. -/
def TooLarge (total : Nat) (dir : Bytes) (n : CStr) (size : Nat) : Prop :=
  ∀ slot base, Chosen dir n slot base → total < highWater base + sectorsOf size

section

variable {total : Nat} {dir dir' base : Bytes}

theorem WithinDisk.sub (h : WithinDisk total dir) (hsub : SubFiles dir' dir) :
    WithinDisk total dir' :=
  fun i hi hf => by
    obtain ⟨hf', hstart, hsize⟩ := hsub i hi hf
    rw [hstart, hsize]
    exact h i hi hf'

/-- A new file that ends inside. -/
theorem WithinDisk.setFile {slot size : Nat} {name : CStr} (h : WithinDisk total base)
    (hsize : size < 2 ^ 32) (hend : highWater base + writtenSectors size ≤ total) :
    WithinDisk total (setEntry base slot name (highWater base) size alfsFlagUsed) :=
  fun i hi hf => by
  have hle := sectorsOf_le_writtenSectors size
  by_cases hslot : i = slot
  · obtain ⟨hst, hsz, -⟩ := setEntry_self base slot name (highWater_lt base) hsize
      (show alfsFlagUsed < 2 ^ 32 by decide)
    rw [hslot, hst, hsz]
    exact ⟨dataStart_le_highWater base, by omega⟩
  · obtain ⟨hf', hst, hsz⟩ := isFile_setEntry hslot hf
    rw [hst, hsz]
    exact h i hi hf'

/-! ## one call -/

/-- From `fs` to `fs'` nothing is written behind the end of the disk, and the files stay inside. -/
structure Inside (total : Nat) (fs fs' : Fs) : Prop where
  disk : ∀ a, 512 * total ≤ a → fs'.disk.data a = fs.disk.data a
  files : WithinDisk total fs'.dir

variable {fs fs' : Fs}

/-- A flush of the directory. -/
theorem Inside.flush {d : Disk} {slot : Nat} {ok : Bool} (htotal : alfsDataStart ≤ total)
    (hslot : slot < alfsMaxFiles) (hdisk : ∀ a, 512 * total ≤ a → d.data a = fs.disk.data a)
    (hfiles : WithinDisk total dir)
    (hflush : dirFlushSlot { fs with disk := d, dir := dir } slot = (ok, fs')) :
    Inside total fs fs' := by
  obtain ⟨hout, -, hdir, -, -⟩ := dirFlushSlot_spec { fs with disk := d, dir := dir } hslot
  rw [hflush] at hout hdir
  unfold alfsMaxFiles at hslot
  unfold alfsDataStart at htotal
  refine ⟨fun a ha => ?_, hdir ▸ hfiles⟩
  rw [hout a (.inr (by omega)), hdisk a ha]

theorem inside_write {slot size : Nat} {n : CStr} {src : Bytes} {r : Int × Fs}
    (htotal : alfsDataStart ≤ total) (h : WithinDisk total fs.dir) (hch : Chosen fs.dir n slot base)
    (hout : WriteOutcome { fs with dir := base } slot n src size r) (hsize : size < 2 ^ 32)
    (hend : highWater base + writtenSectors size ≤ total) : Inside total fs r.2 := by
  have hbase := h.sub hch.sub.files
  have hdata : ∀ a, 512 * total ≤ a → (writeData src (highWater base) size fs.disk).2.data a =
      fs.disk.data a :=
    fun a ha => writeData_outside src fs.disk fun s c _ _ hhi => .inr (by
      omega)
  cases hout with
  | dataFailed d hd =>
    rw [hd] at hdata
    exact ⟨hdata, hbase⟩
  | flushFailed d fs' hd hflush =>
    rw [hd] at hdata
    exact .flush htotal hch.lt hdata (hbase.setFile hsize hend) hflush
  | written d fs' hd hflush =>
    rw [hd] at hdata
    exact .flush htotal hch.lt hdata (hbase.setFile hsize hend) hflush

/-- **One call** that ends inside, whichever transfers fail. -/
theorem inside_run (htotal : alfsDataStart ≤ total) (h : WithinDisk total fs.dir)
    (o : List AtaOutcome)
    {c : AlfsCall} (hc : EndsInside total fs.dir c) : Inside total fs (c.run o fs).2 := by
  suffices hstep : Inside total (fs.withScript o) (c.run o fs).2 from ⟨hstep.disk, hstep.files⟩
  have hsame : Inside total (fs.withScript o) (fs.withScript o) := ⟨fun _ _ => rfl, h⟩
  cases c with
  | write name buf size =>
    show Inside total (fs.withScript o) (alfsWrite (fs.withScript o) name buf size.toNat).2
    obtain ⟨heq, -⟩ | ⟨n, slot, base, rfl, -, -, hch, hout⟩ :=
      alfsWrite_cases (fs.withScript o) name buf size.toNat
    · rw [heq]
      exact hsame
    · exact inside_write htotal h hch hout size.toNat_lt (hc slot base hch)
  | mkdir path =>
    show Inside total (fs.withScript o) (alfsMkdir (fs.withScript o) path).2
    obtain ⟨heq, -⟩ | ⟨p, slot, rfl, -, -, hslot, ok, fs', hflush, heq⟩ :=
      alfsMkdir_cases (fs.withScript o) path
    · rw [heq]
      exact hsame
    · rw [heq]
      exact .flush htotal (firstUnused_eq_some.mp hslot).1 (fun _ _ => rfl)
        (h.sub (subFiles_setDir _ _ _)) hflush
  | delete name =>
    show Inside total (fs.withScript o) (alfsDelete (fs.withScript o) name).2
    obtain ⟨heq, -⟩ | ⟨n, slot, rfl, -, hfind, ok, fs', hflush, heq⟩ :=
      alfsDelete_cases (fs.withScript o) name
    · rw [heq]
      exact hsame
    · rw [heq]
      exact .flush htotal (findEntry_eq_some.mp hfind).1 (fun _ _ => rfl)
        (h.sub (sub_setFlags_zero _ _).files) hflush

/-- A write that ends inside and is too large is one that has no slot. -/
theorem alfsWrite_tooLarge {name : Option CStr} {buf : Option Bytes} {size : UInt32}
    (hc : EndsInside total fs.dir (.write name buf size))
    (hlarge : ∀ n, name = some n → TooLarge total fs.dir n size.toNat) (o : List AtaOutcome) :
    ((AlfsCall.write name buf size).run o fs).1 = -1 := by
  show (alfsWrite (fs.withScript o) name buf size.toNat).1 = -1
  obtain ⟨heq, -⟩ | ⟨n, slot, base, rfl, -, -, hch, -⟩ :=
    alfsWrite_cases (fs.withScript o) name buf size.toNat
  · rw [heq]
  · have hle := hc slot base hch
    have hgt := hlarge n rfl slot base hch
    have hsect := sectorsOf_le_writtenSectors size.toNat
    omega

/-! ## runs -/

theorem AlfsRun.inside {fs₀ : Fs} (htotal : alfsDataStart ≤ total) (h0 : WithinDisk total fs₀.dir)
    (hrun : AlfsRun (fun fs _ c => EndsInside total fs.dir c) fs₀ fs) : Inside total fs₀ fs := by
  induction hrun with
  | nil => exact ⟨fun _ _ => rfl, h0⟩
  | call o c _ hc ih =>
    have hstep := inside_run htotal ih.files o hc
    exact ⟨fun a ha => (hstep.disk a ha).trans (ih.disk a ha), hstep.files⟩

/-- **The end of the disk**: from a mounted image whose files lie inside it, calls whose writes
end inside never touch a sector behind the end, whichever transfers fail, and leave all
files inside; of these calls, those with a file that is too large return -1. -/
theorem alfs_stays_inside {pre : Fs}
    (hfiles : WithinDisk (totalSects (alfsInit pre).2) (alfsInit pre).2.dir)
    (htotal : alfsDataStart ≤ totalSects (alfsInit pre).2)
    (hrun : AlfsRun (fun fs _ c => EndsInside (totalSects (alfsInit pre).2) fs.dir c)
      (alfsInit pre).2 fs) :
    Inside (totalSects (alfsInit pre).2) (alfsInit pre).2 fs ∧
      ∀ o name buf size, EndsInside (totalSects (alfsInit pre).2) fs.dir (.write name buf size) →
        (∀ n, name = some n → TooLarge (totalSects (alfsInit pre).2) fs.dir n size.toNat) →
        ((AlfsCall.write name buf size).run o fs).1 = -1 :=
  ⟨hrun.inside htotal hfiles, fun o _ _ _ hc hlarge => alfsWrite_tooLarge hc hlarge o⟩

end

/-! ## a small disk -/

/-- The bytes of a drive with this directory and 256 sectors. -/
def smallDisk (dir : Bytes) : Bytes := store32 (image dir) 20 diskSects

/-- Before `alfs_init`. -/
def smallUnmounted (dir : Bytes) : Fs where
  ready := false
  super := fun _ => 0
  dir := fun _ => 0
  disk := ⟨smallDisk dir, []⟩

/-- After it. -/
def smallMounted (dir : Bytes) : Fs where
  ready := true
  super := fun k => (slice (smallDisk dir) (512 * 0) (512 * 1)).getD k 0
  dir := dir
  disk := ⟨smallDisk dir, []⟩

theorem alfsInit_smallUnmounted {dir : Bytes} (hdir : ∀ a, dirBytes ≤ a → dir a = 0) :
    alfsInit (smallUnmounted dir) = (0, smallMounted dir) := by
  refine alfsInit_of_disk ((load32_store32_of_disjoint (by decide)).trans (load32_image dir))
    (fun a ha => ?_) hdir
  exact (store32_of_notMem (by unfold alfsDirStart; omega)).trans (image_dir ha)

theorem totalSects_smallMounted (dir : Bytes) : totalSects (smallMounted dir) = diskSects := by
  have hsuper : ∀ k < 512, (smallMounted dir).super k = smallDisk dir k := fun k hk => by
    unfold smallMounted
    dsimp only
    rw [getD_slice (by omega), Nat.mul_zero, Nat.zero_add]
  calc load32 (smallMounted dir).super 20
      = load32 (smallDisk dir) 20 := load32_congr fun k hk => hsuper _ (by omega)

/-- A first file on an empty drive. -/
theorem alfs_stays_inside_small :
    let fs := (alfsInit (smallUnmounted fun _ => 0)).2
    let r := (AlfsCall.write (some letterA) (some fun _ => 1) 3).run [] fs
    totalSects fs = 256 ∧ WithinDisk 256 r.2.dir ∧ ∀ a, 512 * 256 ≤ a →
      r.2.disk.data a = fs.disk.data a := by
  have hmount : alfsInit (smallUnmounted fun _ => 0) = (0, smallMounted fun _ => 0) :=
    alfsInit_smallUnmounted fun _ _ => rfl
  have htotal : totalSects (alfsInit (smallUnmounted fun _ => 0)).2 = 256 := by
    rw [hmount]
    exact totalSects_smallMounted _
  have hends : EndsInside 256 (fun _ => 0) (.write (some letterA) (some fun _ => 1) 3) := by
    intro slot base hch
    obtain ⟨hf, -, -⟩ | ⟨-, -, rfl⟩ := hch
    · cases hf
    · decide +kernel
  have hfiles : WithinDisk (totalSects (alfsInit (smallUnmounted fun _ => 0)).2)
      (alfsInit (smallUnmounted fun _ => 0)).2.dir := by
    rw [hmount]
    intro i hi hf
    have hunused : ∀ i < alfsMaxFiles, entryUsed (fun _ => 0) i = false := by decide +kernel
    exact absurd ((hunused i hi).symm.trans hf.1) Bool.false_ne_true
  have h := alfs_stays_inside hfiles (by rw [htotal]; decide)
    (.call [] (.write (some letterA) (some fun _ => 1) 3) .nil
      (by rw [htotal, hmount]; exact hends))
  rw [htotal] at h
  exact ⟨htotal, h.1.files, h.1.disk⟩

/-- One file in all the 249 sectors there are for data. -/
def fullDir : Bytes := setEntry (fun _ => 0) 0 letterA alfsDataStart (249 * 512) alfsFlagUsed

/-- The image is consistent and full, and `mkfs` at this point refuses a file of one byte.
The kernel returns its slot, with the data behind the end of the disk. -/
theorem alfs_write_past_end :
    let fs := (alfsInit (smallUnmounted fullDir)).2
    let r := (AlfsCall.write (some letterB) (some fun _ => 1) 1).run [] fs
    (alfsInit (smallUnmounted fullDir)).1 = 0 ∧ totalSects fs = 256 ∧ WithinDisk 256 fs.dir ∧
      mkfsPlace ⟨fs.disk.data, highWater fs.dir, 1⟩ (.file letterB [1]) = .error .diskFull ∧
      r.1 = 1 ∧ entryStart r.2.dir 1 = 256 ∧ ¬WithinDisk 256 r.2.dir ∧
      fs.disk.data (512 * 256) = 0 ∧ r.2.disk.data (512 * 256) = 1 := by
  have hfull : ∀ a, dirBytes ≤ a → fullDir a = 0 := fun a ha =>
    setEntry_of_notMem (.inr (by unfold dirBytes sectorSize alfsDirSects at ha; omega))
  rw [alfsInit_smallUnmounted hfull]
  have hwithin : ∀ i < alfsMaxFiles, entryUsed fullDir i = true →
      alfsDataStart ≤ entryStart fullDir i ∧
      entryStart fullDir i + sectorsOf (entrySize fullDir i) ≤ 256 := by decide +kernel
  have hmkfs : mkfsPlace ⟨(smallMounted fullDir).disk.data, highWater (smallMounted fullDir).dir, 1⟩
      (.file letterB [1]) = .error .diskFull := by
    rfl
  refine ⟨rfl, totalSects_smallMounted _, fun i hi hf => hwithin i hi hf.1, hmkfs,
    by decide +kernel, by decide +kernel, fun h => ?_, by decide +kernel, by decide +kernel⟩
  have hend := (h 1 (by decide) ⟨by decide +kernel, by decide +kernel⟩).2
  revert hend
  decide +kernel

end AliOS
