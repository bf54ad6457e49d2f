import AliOS.Alfs.Errors

/-!
# AliOS.Alfs.Remount

The directory on disk is the directory in memory.  Every call flushes the one
directory sector of the entry it changed, and data goes to sectors 7 and up, so
after calls whose transfers all succeed sectors 1 to 6 are a copy of `fs_dir`
and mounting again changes nothing.

The drive sees 28 bits of a sector number, and nothing in `alfs_write` or the
driver checks the rest: a file far enough out is written over the superblock
and the directory.  `KeepsOut` says that a write does not do so.
-/

namespace AliOS

open Lib

/-- Bytes of `fs_dir`, and of the directory on disk. -/
def dirBytes : Nat := sectorSize * alfsDirSects

/-- The directory on disk is the one in memory, behind a valid superblock. -/
structure Mirrors (fs : Fs) : Prop where
  ready : fs.ready = true
  magic : load32 fs.disk.data 0 = alfsMagic
  dir : ∀ a < dirBytes, fs.disk.data (512 * alfsDirStart + a) = fs.dir a

/-- No sector of a write is, in 28 bits, one of the sectors 0 to 6. -/
def KeepsOut (dir : Bytes) : AlfsCall → Prop
  | .write (some n) _ size => ∀ slot base, Chosen dir n slot base →
      ∀ s, highWater base ≤ s → s < highWater base + writtenSectors size.toNat →
        alfsDataStart ≤ s % 2 ^ 28
  | _ => True

/-! ## mounting -/

/-- A successful `alfs_init` mounts what is on the drive. -/
theorem mirrors_alfsInit {fs : Fs} (h : (alfsInit fs).1 = 0) : Mirrors (alfsInit fs).2 := by
  unfold alfsInit at h ⊢
  cases h1 : ataRead fs.disk 0 1 with
  | mk res d1 =>
    rw [h1] at h
    cases res with
    | none => exact absurd h (by simp)
    | some super =>
      obtain ⟨hsuper, hd1⟩ := ataRead_some (by omega) h1
      dsimp only at h ⊢
      by_cases hmagic : load32 (fun k => super.getD k 0) 0 ≠ alfsMagic
      · rw [if_pos hmagic] at h
        exact absurd h (by simp)
      · rw [if_neg hmagic] at h ⊢
        cases h2 : ataRead d1 alfsDirStart alfsDirSects with
        | mk res d2 =>
          rw [h2] at h
          cases res with
          | none => exact absurd h (by simp)
          | some bytes =>
            obtain ⟨hbytes, hd2⟩ := ataRead_some (by unfold alfsDirStart; omega) h2
            refine ⟨rfl, ?_, fun a ha => ?_⟩
            · rw [← not_ne_iff.mp hmagic]
              refine load32_congr fun k hk => ?_
              rw [hsuper, getD_slice (by omega), hd2, hd1, Nat.mul_zero, Nat.zero_add,
                Nat.zero_add]
            · unfold dirBytes sectorSize alfsDirSects at ha
              dsimp only
              rw [blit_of_mem ⟨Nat.zero_le a, by unfold sectorSize alfsDirSects; omega⟩,
                hbytes, getD_slice (by unfold alfsDirSects; omega), hd2, Nat.sub_zero]

/-- `alfs_init` of a reliable drive with a valid superblock. -/
theorem alfsInit_eq (fs : Fs) (hd : fs.disk.script = [])
    (hmagic : load32 fs.disk.data 0 = alfsMagic) :
    alfsInit fs = (0, { ready := true,
                        super := fun k => (slice fs.disk.data (512 * 0) (512 * 1)).getD k 0,
                        dir := blit fs.dir 0 dirBytes fun k =>
                          fs.disk.data (512 * alfsDirStart + k),
                        disk := fs.disk }) := by
  have hsuper : load32 (fun k => (slice fs.disk.data (512 * 0) (512 * 1)).getD k 0) 0 =
      alfsMagic := by
    rw [← hmagic]
    refine load32_congr fun k hk => ?_
    rw [getD_slice (by omega), Nat.mul_zero, Nat.zero_add]
  have hdir : (blit fs.dir 0 (sectorSize * alfsDirSects) fun k =>
      (slice fs.disk.data (512 * alfsDirStart) (512 * alfsDirSects)).getD k 0) =
      blit fs.dir 0 dirBytes fun k => fs.disk.data (512 * alfsDirStart + k) :=
    blit_congr fun k hk => getD_slice (by unfold sectorSize at hk; exact hk)
  unfold alfsInit
  rw [ataRead_quiet hd (by omega)]
  dsimp only
  rw [if_neg (by rw [hsuper]; exact fun h => h rfl),
    ataRead_quiet hd (by unfold alfsDirStart; omega)]
  dsimp only
  rw [hdir]

/-- Mounting again gives the same directory. -/
theorem alfsInit_quiet {fs : Fs} (h : Mirrors fs) :
    (alfsInit fs.quiet).1 = 0 ∧
      ∃ super, (alfsInit fs.quiet).2 = { fs.quiet with super := super } := by
  have hready : fs.quiet.ready := h.ready
  have hdir : (blit fs.quiet.dir 0 dirBytes fun k => fs.quiet.disk.data (512 * alfsDirStart + k)) =
      fs.quiet.dir := blit_self fun k hk => (h.dir k hk).trans (by rw [Nat.zero_add]; rfl)
  rw [alfsInit_eq fs.quiet rfl h.magic, hdir, ← hready]
  exact ⟨rfl, _, rfl⟩

/-! ## one call -/

/-- The data of a write that keeps out spares the superblock and the directory. -/
theorem writeData_low (src : Bytes) {lba size : Nat} (d : Disk)
    (hkeep : ∀ s, lba ≤ s → s < lba + writtenSectors size → alfsDataStart ≤ s % 2 ^ 28) {a : Nat}
    (ha : a < 512 * alfsDataStart) : (writeData src lba size d).2.data a = d.data a := by
  refine writeData_outside src d fun s c hc hlo hhi => .inl ?_
  have hsect := hkeep s hlo (by omega)
  omega

/-- A flush after a change of one entry brings the disk up to date. -/
theorem mirrors_flush {fs fs' : Fs} (h : Mirrors fs) {d : Disk} {dir : Bytes} {slot : Nat}
    (hslot : slot < alfsMaxFiles)
    (hlow : ∀ a < 512 * alfsDataStart, d.data a = fs.disk.data a)
    (hentry : ∀ a, a < 64 * slot ∨ 64 * slot + 64 ≤ a → dir a = fs.dir a)
    (hflush : dirFlushSlot { fs with disk := d, dir := dir } slot = (true, fs')) : Mirrors fs' := by
  obtain ⟨hout, hcopy, hdir, hready, -⟩ :=
    dirFlushSlot_spec { fs with disk := d, dir := dir } hslot
  rw [hflush] at hout hcopy hdir hready
  dsimp only at hout hcopy hdir hready
  unfold alfsDataStart at hlow
  refine ⟨hready.trans h.ready, ?_, fun a ha => ?_⟩
  · rw [← h.magic]
    refine load32_congr fun k hk => ?_
    rw [hout _ (by omega), hlow _ (by omega)]
  · have hmem := h.dir a ha
    unfold dirBytes sectorSize alfsDirSects at ha
    unfold alfsDirStart at hmem ⊢
    rw [hdir]
    by_cases hsec : a / 512 = slot / 8
    · have hk := hcopy rfl (a % 512) (by omega)
      rw [show 512 * (1 + slot / 8) + a % 512 = 512 * 1 + a by omega,
        show 512 * (slot / 8) + a % 512 = a by omega] at hk
      exact hk
    · rw [hout _ (by omega), hlow _ (by omega), hmem, hentry a (by omega)]

theorem failsAt_of_ok {o : List AtaOutcome} (h : ∀ x ∈ o, x = .ok) (k : Nat) :
    failsAt o k = false := by
  unfold failsAt
  cases hk : o[k]? with
  | none => rfl
  | some x =>
    rw [h x (List.mem_of_getElem? hk)]

/-- **One call** whose transfers succeed keeps disk and memory in step. -/
theorem mirrors_run {fs : Fs} (h : Mirrors fs) {o : List AtaOutcome} (ho : ∀ x ∈ o, x = .ok)
    {c : AlfsCall} (hkeep : KeepsOut fs.dir c) : Mirrors (c.run o fs).2 := by
  have hs : Mirrors (fs.withScript o) := ⟨h.ready, h.magic, h.dir⟩
  cases c with
  | write name buf size =>
    show Mirrors (alfsWrite (fs.withScript o) name buf size.toNat).2
    obtain ⟨heq, -⟩ | ⟨n, slot, base, rfl, -, -, hch, hout⟩ :=
      alfsWrite_cases (fs.withScript o) name buf size.toNat
    · rw [heq]; exact hs
    · obtain ⟨-, -, k, -, hfails⟩ | ⟨-, -, -, hfails⟩ | ⟨hret, -⟩ := hout.script_cases
      · exact absurd hfails (by simp [Fs.withScript, failsAt_of_ok ho])
      · exact absurd hfails (by simp [Fs.withScript, failsAt_of_ok ho])
      · generalize alfsWrite (fs.withScript o) (some n) buf size.toNat = r at *
        cases hout with
        | dataFailed d hdata => exact absurd hret (by simp)
        | flushFailed d fs' hdata hflush => exact absurd hret (by simp)
        | written d fs' hdata hflush =>
          refine mirrors_flush hs hch.lt (fun a ha => ?_) (fun a ha => ?_) hflush
          · have hlow := writeData_low (buf.getD fun _ => 0) (fs.withScript o).disk
              (hkeep slot base hch) ha
            rw [hdata] at hlow
            exact hlow
          · refine (setEntry_of_notMem ha).trans ?_
            obtain ⟨-, -, rfl⟩ | ⟨-, -, rfl⟩ := hch
            · exact setFlags_of_notMem (by omega)
            · rfl
  | mkdir path =>
    show Mirrors (alfsMkdir (fs.withScript o) path).2
    obtain ⟨heq, -⟩ | ⟨p, slot, rfl, -, -, hslot, ok, fs', hflush, heq⟩ :=
      alfsMkdir_cases (fs.withScript o) path
    · rw [heq]; exact hs
    · have hok : ok := by
        rw [flush_result hflush]
        simp [Fs.withScript, failsAt_of_ok ho]
      subst hok
      rw [heq]
      exact mirrors_flush hs (firstUnused_eq_some.mp hslot).1 (fun _ _ => rfl)
        (fun a ha => setEntry_of_notMem ha) hflush
  | delete name =>
    show Mirrors (alfsDelete (fs.withScript o) name).2
    obtain ⟨heq, -⟩ | ⟨n, slot, rfl, -, hfind, ok, fs', hflush, heq⟩ :=
      alfsDelete_cases (fs.withScript o) name
    · rw [heq]; exact hs
    · have hok : ok := by
        rw [flush_result hflush]
        simp [Fs.withScript, failsAt_of_ok ho]
      subst hok
      rw [heq]
      exact mirrors_flush hs (findEntry_eq_some.mp hfind).1 (fun _ _ => rfl)
        (fun a ha => setFlags_of_notMem (by omega)) hflush

/-! ## runs -/

theorem AlfsRun.mirrors {fs₀ fs : Fs} (h : Mirrors fs₀)
    (hrun : AlfsRun (fun fs o c => (∀ x ∈ o, x = .ok) ∧ KeepsOut fs.dir c) fs₀ fs) :
    Mirrors fs := by
  induction hrun with
  | nil => exact h
  | call o c _ hok ih => exact mirrors_run ih hok.1 hok.2

/-- **Write-through**: in every state reached from a successful mount by calls
whose transfers succeed and whose writes keep out of the sectors 0 to 6, the
directory on disk is `fs_dir` byte for byte, and mounting again yields the same
directory and the same lookups and reads. -/
theorem alfs_remount_same {pre fs : Fs} (hmount : (alfsInit pre).1 = 0)
    (hrun : AlfsRun (fun fs o c => (∀ x ∈ o, x = .ok) ∧ KeepsOut fs.dir c) (alfsInit pre).2 fs) :
    (∀ a < dirBytes, fs.disk.data (512 * alfsDirStart + a) = fs.dir a) ∧
    (alfsInit fs.quiet).1 = 0 ∧ (alfsInit fs.quiet).2.dir = fs.dir ∧
    (∀ name, alfsFind (alfsInit fs.quiet).2 name = alfsFind fs name) ∧
    (∀ idx, alfsStat (alfsInit fs.quiet).2 idx = alfsStat fs idx) ∧
    ∀ idx len off,
      (alfsPread (alfsInit fs.quiet).2 idx len off).1 = (alfsPread fs.quiet idx len off).1 := by
  have h := hrun.mirrors (mirrors_alfsInit hmount)
  obtain ⟨hret, super, heq⟩ := alfsInit_quiet h
  refine ⟨h.dir, hret, ?_, fun name => ?_, fun idx => ?_, fun idx len off => ?_⟩
  · rw [heq]; rfl
  · rw [heq]; rfl
  · rw [heq]; rfl
  · rw [heq, alfsPread_eq, alfsPread_eq, apply_ite Prod.fst, apply_ite Prod.fst]
    rfl

/-! ## a drive with a file far out -/

/-- An image: superblock, a directory, and nothing else. -/
def image (dir : Bytes) : Bytes := store32 (blit (fun _ => 0) 512 dirBytes dir) 0 alfsMagic

/-- Before `alfs_init`. -/
def unmounted (dir : Bytes) : Fs where
  ready := false
  super := fun _ => 0
  dir := fun _ => 0
  disk := ⟨image dir, []⟩

/-- After it. -/
def mounted (dir : Bytes) : Fs where
  ready := true
  super := fun k => (slice (image dir) (512 * 0) (512 * 1)).getD k 0
  dir := dir
  disk := ⟨image dir, []⟩

/-- Mounting a disk that has the magic number and the directory `dir`. -/
theorem alfsInit_of_disk {dir data : Bytes} (hmagic : load32 data 0 = alfsMagic)
    (hdata : ∀ a < dirBytes, data (512 * alfsDirStart + a) = dir a)
    (hdir : ∀ a, dirBytes ≤ a → dir a = 0) :
    alfsInit ⟨false, fun _ => 0, fun _ => 0, ⟨data, []⟩⟩ =
      (0, ⟨true, fun k => (slice data (512 * 0) (512 * 1)).getD k 0, dir, ⟨data, []⟩⟩) := by
  have hread : (blit (fun _ => 0) 0 dirBytes fun k => data (512 * alfsDirStart + k)) = dir := by
    funext a
    by_cases ha : a < dirBytes
    · rw [blit_of_mem ⟨Nat.zero_le a, by omega⟩, Nat.sub_zero, hdata a ha]
    · rw [blit_of_notMem (by omega), hdir a (by omega)]
  rw [alfsInit_eq ⟨false, fun _ => 0, fun _ => 0, ⟨data, []⟩⟩ rfl hmagic]
  rw [hread]

theorem load32_image (dir : Bytes) : load32 (image dir) 0 = alfsMagic :=
  load32_store32_self (by decide)

theorem image_dir {dir : Bytes} {a : Nat} (ha : a < dirBytes) :
    image dir (512 * alfsDirStart + a) = dir a := by
  unfold image
  rw [store32_of_notMem (by unfold alfsDirStart; omega)]
  exact blit_add ha

theorem alfsInit_unmounted {dir : Bytes} (hdir : ∀ a, dirBytes ≤ a → dir a = 0) :
    alfsInit (unmounted dir) = (0, mounted dir) :=
  alfsInit_of_disk (load32_image dir) (fun _ ha => image_dir ha) hdir

theorem alfs_remount_same_small :
    let fs := ((AlfsCall.write (some letterA) (some fun _ => 1) 3).run []
      (alfsInit (unmounted fun _ => 0)).2).2
    (alfsInit fs.quiet).1 = 0 ∧
      alfsFind (alfsInit fs.quiet).2 (some letterA) = alfsFind fs (some letterA) := by
  have hmount : alfsInit (unmounted fun _ => 0) = (0, mounted fun _ => 0) :=
    alfsInit_unmounted fun _ _ => rfl
  have hkeep : KeepsOut (mounted fun _ => 0).dir (.write (some letterA) (some fun _ => 1) 3) := by
    have hfind : findEntry (mounted fun _ => 0).dir letterA = none := by decide +kernel
    have hend : highWater (mounted fun _ => 0).dir + 1 ≤ 2 ^ 28 := by decide +kernel
    intro slot base hch s hlo hhi
    obtain ⟨hf, -, -⟩ | ⟨-, -, rfl⟩ := hch
    · rw [hfind] at hf
      cases hf
    · have := dataStart_le_highWater (mounted fun _ => 0).dir
      change s < _ + 1 at hhi
      omega
  have h := alfs_remount_same (congrArg Prod.fst hmount)
    (.call [] (.write (some letterA) (some fun _ => 1) 3) .nil
      ⟨fun x hx => absurd hx List.not_mem_nil, by rw [hmount]; exact hkeep⟩)
  exact ⟨h.2.1, h.2.2.2.1 _⟩

/-- One file in the last sector a 28-bit drive has. -/
def farDir : Bytes := setEntry (fun _ => 0) 0 letterA 0xFFFFFFF 512 alfsFlagUsed

/-- The next file is written over the superblock, and the drive cannot be
mounted again. -/
theorem alfs_write_over_superblock :
    let fs := (alfsInit (unmounted farDir)).2
    let r := (AlfsCall.write (some letterB) (some fun _ => 1) 3).run [] fs
    (alfsInit (unmounted farDir)).1 = 0 ∧ r.1 = 1 ∧ (alfsInit r.2.quiet).1 = -1 := by
  have hfar : ∀ a, dirBytes ≤ a → farDir a = 0 := fun a ha =>
    setEntry_of_notMem (.inr (by unfold dirBytes sectorSize alfsDirSects at ha; omega))
  rw [alfsInit_unmounted hfar]
  refine ⟨rfl, ?_, ?_⟩ <;> decide +kernel

end AliOS
