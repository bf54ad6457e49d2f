import Mathlib.Data.List.Forall2
import AliOS.Alfs.Names
import AliOS.Alfs.Remount

/-!
# AliOS.Mkfs

The image builder (`tools/mkfs.c`), a program of the host that lays out an AliFS
image on its own, from its own copy of the constants.  Its arguments are
`d:path` for a directory and `hostpath:fspath` for a file; entry `i` of the
directory is argument `i`, and the files follow each other from sector 7 on.

What is proved is that the kernel reads the image as it was meant: `Laid` says
where every argument is to be found in the buffer, each turn of the loop extends
it by one argument, and a mounted image has it in its directory.

`host` stands for the files of the host.  An argument or file that `mkfs` rejects
ends it with exit status 1.  `fread` is given the size of the file, and the check
before it is done in 32-bit arithmetic, so a file of 2 TB passes it and is read
past the end of the buffer: that is the error `overrun`, no exit status at all.
-/

namespace AliOS

open Lib List

variable {i : Nat} {it : Item} {st st' : Mkfs} {host : CStr → Option (List UInt8)}

/-! ## the program -/

def diskSects : Nat := 256

/-- Why `mkfs` does not get to the end. -/
inductive MkfsError where
  | tooManyEntries
  | missingColon
  | pathTooLong
  | cannotOpen
  | diskFull
  | overrun
deriving DecidableEq

/-- What an argument asks for. -/
inductive Item where
  | dir (path : CStr)
  | file (path : CStr) (bytes : List UInt8)

/-- The variables of the loop. -/
structure Mkfs where
  disk : Bytes
  nextSect : Nat
  written : Nat

/-- The string "d". -/
def letterD : CStr := ⟨[100], by simp⟩

/-- An argument up to the opening of its file. -/
def mkfsParse (host : CStr → Option (List UInt8)) (arg : CStr) : Except MkfsError Item :=
  match (arg.take 511).cut 58 with
  | none => .error .missingColon
  | some (left, fspath) =>
    if fspath.length ≥ alfsNameMax then .error .pathTooLong
    else if left.chars = letterD.chars then .ok (.dir fspath)
    else match host left with
      | none => .error .cannotOpen
      | some bytes => .ok (.file fspath bytes)

/-- The directory starts at sector 1, so its entry `i` is entry `8 + i` of the
disk seen as an array of entries. -/
def dirSlot (i : Nat) : Nat := 512 * alfsDirStart / 64 + i

/-- The rest of the loop body: space for the file, its bytes, its entry. -/
def mkfsPlace (st : Mkfs) : Item → Except MkfsError Mkfs
  | .dir fspath => .ok
      { st with
        disk := setEntry st.disk (dirSlot st.written) fspath 0 0 (alfsFlagUsed ||| alfsFlagDir),
        written := st.written + 1 }
  | .file fspath bytes =>
    let fsize := bytes.length
    let sectsNeeded := (fsize + 511) / 512 % 2 ^ 32
    if (st.nextSect + sectsNeeded) % 2 ^ 32 > diskSects then .error .diskFull
    else if 512 * st.nextSect + fsize > 512 * diskSects then .error .overrun
    else
      let disk := blit st.disk (512 * st.nextSect) fsize fun k => bytes.getD k 0
      .ok
        { disk := setEntry disk (dirSlot st.written) fspath st.nextSect (fsize % 2 ^ 32)
            alfsFlagUsed,
          nextSect := (st.nextSect + sectsNeeded) % 2 ^ 32,
          written := st.written + 1 }

def mkfsEntry (host : CStr → Option (List UInt8)) (st : Mkfs) (arg : CStr) :
    Except MkfsError Mkfs :=
  (mkfsParse host arg).bind (mkfsPlace st)

/-- The cleared buffer with the superblock. -/
def mkfsStart : Mkfs where
  disk :=
    let disk := store32 (fun _ => 0) 0 alfsMagic
    let disk := store32 disk 4 2
    let disk := store32 disk 8 alfsDirStart
    let disk := store32 disk 12 alfsDirSects
    let disk := store32 disk 16 alfsDataStart
    store32 disk 20 diskSects
  nextSect := alfsDataStart
  written := 0

/-- `mkfs output args…`; the image is the first 256 sectors of `disk`. -/
def mkfs (host : CStr → Option (List UInt8)) (args : List CStr) : Except MkfsError Mkfs :=
  if args.length > alfsMaxFiles then .error .tooManyEntries
  else args.foldlM (mkfsEntry host) mkfsStart

/-! ## the layout -/

def Item.path : Item → CStr
  | .dir path => path
  | .file path _ => path

/-- Sectors an item takes. -/
def Item.sectors : Item → Nat
  | .dir _ => 0
  | .file _ bytes => sectorsOf bytes.length

/-- Its flags in the directory. -/
def Item.flags : Item → Nat
  | .dir _ => alfsFlagUsed ||| alfsFlagDir
  | .file _ _ => alfsFlagUsed

theorem Item.flags_lt (it : Item) : it.flags < 2 ^ 32 := by
  cases it <;> simp [Item.flags, alfsFlagUsed, alfsFlagDir]

@[simp] theorem Item.flags_used (it : Item) : (it.flags &&& alfsFlagUsed != 0) := by
  cases it <;> simp [Item.flags, alfsFlagUsed, alfsFlagDir]

@[simp] theorem Item.dir_flags (path : CStr) :
    ((Item.dir path).flags &&& alfsFlagDir != 0) := by
  simp [Item.flags, alfsFlagUsed, alfsFlagDir]

@[simp] theorem Item.file_flags (path : CStr) (bytes : List UInt8) :
    ((Item.file path bytes).flags &&& alfsFlagDir != 0) = false := by
  simp [Item.flags, alfsFlagUsed, alfsFlagDir]

/-- The first sector behind the data of these items. -/
def layoutEnd (items : List Item) : Nat := alfsDataStart + (items.map Item.sectors).sum

@[simp] theorem layoutEnd_concat (items : List Item) (it : Item) :
    layoutEnd (items ++ [it]) = layoutEnd items + it.sectors := by
  simp [layoutEnd, Nat.add_assoc]

theorem layoutEnd_take_succ {items : List Item} (h : items[i]? = some it) :
    layoutEnd (items.take (i + 1)) = layoutEnd (items.take i) + it.sectors := by
  rw [take_add_one, h]
  exact layoutEnd_concat _ it

theorem layoutEnd_take_mono (items : List Item) {j : Nat} (h : i ≤ j) :
    layoutEnd (items.take i) ≤ layoutEnd (items.take j) := by
  have htake : items.take i = (items.take j).take i := by rw [take_take, Nat.min_eq_left h]
  have hsum : layoutEnd (items.take j) =
      layoutEnd ((items.take j).take i) + (((items.take j).drop i).map Item.sectors).sum := by
    unfold layoutEnd
    rw [Nat.add_assoc, ← sum_append, ← map_append, take_append_drop]
  rw [hsum, htake]
  exact Nat.le_add_right _ _

theorem layoutEnd_take_le (items : List Item) (i : Nat) :
    layoutEnd (items.take i) ≤ layoutEnd items := by
  by_cases h : i ≤ items.length
  · simpa using layoutEnd_take_mono items h
  · rw [List.take_of_length_le (by omega)]

/-- Entry `i` describes `it`, whose data is at sector `start`.  `dir` is an array
of entries and `data` the bytes of the disk. -/
structure Describes (dir data : Bytes) (i start : Nat) (it : Item) : Prop where
  name : nameOf dir i = it.path.chars
  flags : entryFlags dir i = it.flags
  content : ∀ path bytes, it = .file path bytes →
    entryStart dir i = start ∧ entrySize dir i = bytes.length ∧
      slice data (512 * start) bytes.length = bytes

/-- An entry describes an item as long as its 64 bytes and the data stay. -/
theorem Describes.congr {dir data dir' data' : Bytes} {i' start : Nat}
    (h : Describes dir data i start it) (hdir : ∀ k < 64, dir' (64 * i' + k) = dir (64 * i + k))
    (hdata : ∀ k < 512 * it.sectors, data' (512 * start + k) = data (512 * start + k)) :
    Describes dir' data' i' start it := by
  have hword : ∀ o, o + 4 ≤ 64 → load32 dir' (64 * i' + o) = load32 dir (64 * i + o) := by
    intro o ho
    refine load32_congr fun k hk => ?_
    rw [Nat.add_assoc, Nat.add_assoc]
    exact hdir (o + k) (by omega)
  refine ⟨?_, (hword 60 (by decide)).trans h.flags, fun path bytes hit => ?_⟩
  · rw [← h.name]
    unfold nameOf
    rw [slice_congr fun k hk => hdir k (by unfold alfsNameMax at hk; omega)]
  · obtain ⟨hstart, hsize, hslice⟩ := h.content path bytes hit
    subst hit
    refine ⟨(hword 52 (by decide)).trans hstart, (hword 56 (by decide)).trans hsize, ?_⟩
    rw [← hslice]
    simp only [length_slice]
    refine slice_congr fun k hk => hdata k ?_
    have hle : bytes.length ≤ 512 * sectorsOf bytes.length := by unfold sectorsOf; omega
    exact Nat.lt_of_lt_of_le hk hle

/-- The buffer holds these items, one entry each, data one behind the other. -/
structure Laid (items : List Item) (st : Mkfs) : Prop where
  magic : load32 st.disk 0 = alfsMagic
  written : st.written = items.length
  nextSect : st.nextSect = layoutEnd items
  fits : layoutEnd items ≤ diskSects
  item : ∀ i it, items[i]? = some it →
    Describes st.disk st.disk (dirSlot i) (layoutEnd (items.take i)) it
  unused : ∀ i, items.length ≤ i → i < alfsMaxFiles → entryFlags st.disk (dirSlot i) = 0

@[simp] theorem dirSlot_eq (i : Nat) : dirSlot i = 8 + i := rfl

/-- The empty image. -/
theorem laid_nil : Laid [] mkfsStart where
  magic := by
    unfold mkfsStart
    rw [load32_store32_of_disjoint (by omega), load32_store32_of_disjoint (by omega),
      load32_store32_of_disjoint (by omega), load32_store32_of_disjoint (by omega),
      load32_store32_of_disjoint (by omega), load32_store32_self (by decide)]
  written := rfl
  nextSect := rfl
  fits := by decide
  item := fun i it h => by simp at h
  unused := fun i _ _ => by
    unfold mkfsStart entryFlags
    simp only
    rfl

/-! ## one turn of the loop -/

/-- What a turn does for an item it finds room for. -/
theorem mkfsPlace_ok (hlow : st.nextSect ≤ diskSects) (h : mkfsPlace st it = .ok st') :
    ∃ disk start size, start < 2 ^ 32 ∧ size < 2 ^ 32 ∧
      st' = { disk := setEntry disk (dirSlot st.written) it.path start size it.flags,
              nextSect := st.nextSect + it.sectors, written := st.written + 1 } ∧
      st.nextSect + it.sectors ≤ diskSects ∧
      (∀ k < 512 * st.nextSect, disk k = st.disk k) ∧
      ∀ path bytes, it = .file path bytes → start = st.nextSect ∧ size = bytes.length ∧
        slice disk (512 * st.nextSect) bytes.length = bytes := by
  cases it with
  | dir path =>
    simp only [mkfsPlace, Except.ok.injEq] at h
    exact ⟨st.disk, 0, 0, by decide, by decide, h.symm, hlow, fun _ _ => rfl, by simp⟩
  | file path bytes =>
    simp only [mkfsPlace] at h
    split at h
    · simp at h
    · split at h
      · simp at h
      · rename_i hroom
        unfold diskSects at hroom
        simp only [Except.ok.injEq] at h
        -- the file ends within the buffer, so no operation in 32 bits has wrapped
        have hneed : (bytes.length + 511) / 512 % 2 ^ 32 = sectorsOf bytes.length :=
          Nat.mod_eq_of_lt (by omega)
        have hsects : st.nextSect + sectorsOf bytes.length ≤ 256 := by unfold sectorsOf; omega
        rw [hneed, Nat.mod_eq_of_lt (by omega), Nat.mod_eq_of_lt (by omega)] at h
        refine ⟨_, _, _, by omega, by omega, h.symm, hsects,
          fun k hk => blit_of_notMem (.inl hk), ?_⟩
        rintro _ _ ⟨⟩
        refine ⟨rfl, rfl, ext_getElem (by simp) fun k hk hk' => ?_⟩
        simp only [slice, getElem_map, getElem_range]
        simp [List.getD, hk']

/-- A turn adds its item to the image. -/
theorem Laid.place {items : List Item} (h : Laid items st) (hcount : items.length < alfsMaxFiles)
    (hpath : it.path.length < alfsNameMax) (hplace : mkfsPlace st it = .ok st') :
    Laid (items ++ [it]) st' := by
  obtain ⟨disk, start, size, hstart, hsize, rfl, hroom, hbelow, hfile⟩ :=
    mkfsPlace_ok (h.nextSect ▸ h.fits) hplace
  rw [h.nextSect] at hroom hbelow hfile
  rw [h.written]
  have hdata : 7 ≤ layoutEnd items := Nat.le_add_right _ _
  -- the directory lies below the data: entries not written stay as they were
  have hentry : ∀ i < alfsMaxFiles, ∀ k < 64, disk (64 * dirSlot i + k) =
      st.disk (64 * dirSlot i + k) := by
    intro i hi k hk
    rw [dirSlot_eq]
    unfold alfsMaxFiles at hi
    exact hbelow _ (by omega)
  have hother : ∀ i < alfsMaxFiles, i ≠ items.length → ∀ k < 64,
      setEntry disk (dirSlot items.length) it.path start size it.flags (64 * dirSlot i + k) =
        st.disk (64 * dirSlot i + k) := by
    intro i hi hne k hk
    have hslot : dirSlot i ≠ dirSlot items.length := by
      rw [dirSlot_eq, dirSlot_eq]
      omega
    rw [setEntry_other disk hslot _ _ _ _ k hk, hentry i hi k hk]
  have hbehind : ∀ k, 512 * alfsDataStart ≤ k →
      setEntry disk (dirSlot items.length) it.path start size it.flags k = disk k := by
    intro k hk
    unfold alfsMaxFiles at hcount
    unfold alfsDataStart at hk
    exact setEntry_of_notMem (by rw [dirSlot_eq]; omega)
  obtain ⟨hst, hsz, hfl, -⟩ :=
    setEntry_self disk (dirSlot items.length) it.path hstart hsize it.flags_lt
  have hmade : Made (setEntry disk (dirSlot items.length) it.path start size it.flags)
      (dirSlot items.length) disk it.path :=
    ⟨start, size, it.flags, hstart, hsize, it.flags_lt, it.flags_used, rfl⟩
  have hname := (streq_entryName hpath).mp (hmade.streq_iff.mpr hpath)
  refine ⟨?_, by simp, by simp [h.nextSect], by simpa using hroom, fun i it' hi => ?_,
    fun i hi hi' => ?_⟩
  · rw [← h.magic]
    refine load32_congr fun k hk => ?_
    exact (setEntry_of_notMem (by rw [dirSlot_eq]; omega)).trans (hbelow _ (by omega))
  · by_cases hlt : i < items.length
    · -- an item of an earlier turn: its entry and its data are not touched
      rw [List.getElem?_append_left hlt] at hi
      rw [take_append_of_le_length (by omega)]
      refine (h.item i it' hi).congr (hother i (by omega) (by omega)) fun k hk => ?_
      have hend : layoutEnd (items.take i) + it'.sectors ≤ layoutEnd items := by
        rw [← layoutEnd_take_succ hi]
        exact layoutEnd_take_le items (i + 1)
      have hstart' : alfsDataStart ≤ layoutEnd (items.take i) := Nat.le_add_right _ _
      exact (hbehind _ (by omega)).trans (hbelow _ (by omega))
    · obtain rfl : i = items.length := by
        obtain ⟨hlen, -⟩ := List.getElem?_eq_some_iff.mp hi
        rw [length_append, length_singleton] at hlen
        omega
      obtain rfl : it = it' := by simpa using hi
      rw [take_left]
      refine ⟨hname, hfl, fun path bytes hit => ?_⟩
      obtain ⟨hs, hz, hslice⟩ := hfile path bytes hit
      refine ⟨hst.trans hs, hsz.trans hz, ?_⟩
      rw [← hslice]
      simp only [length_slice]
      exact slice_congr fun k _ => hbehind _ (by unfold alfsDataStart; omega)
  · simp only [length_append, length_singleton] at hi
    rw [(entry_congr (hother i hi' (by omega))).2.2]
    exact h.unused i (by omega) hi'

/-! ## the whole run -/

/-- A path that passes the check fits the name field. -/
theorem mkfsParse_ok {arg : CStr} (h : mkfsParse host arg = .ok it) :
    ∃ left, (arg.take 511).cut 58 = some (left, it.path) ∧ it.path.length < alfsNameMax ∧
      (it = .dir it.path ∧ left = letterD ∨
        ∃ bytes, it = .file it.path bytes ∧ left ≠ letterD ∧ host left = some bytes) := by
  unfold mkfsParse at h
  split at h
  · simp at h
  · rename_i left fspath hcut
    split at h
    · simp at h
    · rename_i hlen
      split at h
      · rename_i hd
        obtain rfl : Item.dir fspath = it := by simpa using h
        exact ⟨left, hcut, not_le.mp hlen, .inl ⟨rfl, CStr.ext hd⟩⟩
      · rename_i hd
        split at h
        · simp at h
        · rename_i bytes hhost
          obtain rfl : Item.file fspath bytes = it := by simpa using h
          exact ⟨left, hcut, not_le.mp hlen, .inr ⟨bytes, rfl, fun hl => hd (by rw [hl]), hhost⟩⟩

/-- The loop lays out its arguments behind the items it starts with. -/
theorem Laid.foldlM {args : List CStr} {items : List Item} (h : Laid items st)
    (hcount : items.length + args.length ≤ alfsMaxFiles)
    (hrun : args.foldlM (mkfsEntry host) st = .ok st') :
    ∃ new, List.Forall₂ (fun arg it => mkfsParse host arg = .ok it) args new ∧
      Laid (items ++ new) st' := by
  induction args generalizing items st with
  | nil =>
    obtain rfl : st = st' := Except.ok.inj hrun
    exact ⟨[], .nil, by simpa using h⟩
  | cons arg args ih =>
    simp only [length_cons] at hcount
    cases hparse : mkfsParse host arg with
    | error e => simp [mkfsEntry, hparse, Except.bind, bind] at hrun
    | ok it =>
      cases hplace : mkfsPlace st it with
      | error e => simp [mkfsEntry, hparse, hplace, Except.bind, bind] at hrun
      | ok st₁ =>
        obtain ⟨left, -, hpath, -⟩ := mkfsParse_ok hparse
        have hstep := h.place (by omega) hpath hplace
        have hrest : args.foldlM (mkfsEntry host) st₁ = .ok st' := by
          simpa [mkfsEntry, hparse, hplace, Except.bind, bind] using hrun
        obtain ⟨new, hnew, hlaid⟩ := ih hstep (by simp; omega) hrest
        exact ⟨it :: new, .cons hparse hnew, by simpa using hlaid⟩

/-! ## the mounted image -/

/-- The directory the kernel has mounted shows these items. -/
structure Shows (items : List Item) (dir data : Bytes) : Prop where
  count : items.length ≤ alfsMaxFiles
  fits : layoutEnd items ≤ diskSects
  item : ∀ i it, items[i]? = some it → Describes dir data i (layoutEnd (items.take i)) it
  unused : ∀ i, items.length ≤ i → i < alfsMaxFiles → entryFlags dir i = 0

/-- `alfs_init` finds the image and shows what is on it. -/
theorem Laid.mount {items : List Item} (h : Laid items st) (hcount : items.length ≤ alfsMaxFiles)
    {fs : Fs}
    (hdrive : fs.disk.script = []) (himage : ∀ k < 512 * diskSects, fs.disk.data k = st.disk k) :
    ∃ super dir, alfsInit fs = (0, { ready := true, super := super, dir := dir, disk := fs.disk }) ∧
      Shows items dir fs.disk.data := by
  unfold diskSects at himage
  have hmagic : load32 fs.disk.data 0 = alfsMagic := by
    rw [← h.magic]
    exact load32_congr fun k hk => himage _ (by omega)
  have hentry : ∀ i < alfsMaxFiles, ∀ k < 64,
      blit fs.dir 0 dirBytes (fun k => fs.disk.data (512 * alfsDirStart + k)) (64 * i + k) =
        st.disk (64 * dirSlot i + k) := by
    intro i hi k hk
    unfold alfsMaxFiles at hi
    have hin : 64 * i + k < dirBytes := by
      unfold dirBytes sectorSize alfsDirSects
      omega
    rw [blit_of_mem ⟨Nat.zero_le _, by omega⟩, himage _ (by unfold alfsDirStart; omega), dirSlot_eq]
    congr 1
    unfold alfsDirStart
    omega
  refine ⟨_, _, alfsInit_eq fs hdrive hmagic, hcount, h.fits, fun i it hi => ?_, fun i hi hi' => ?_⟩
  · have hlt : i < items.length := (List.getElem?_eq_some_iff.mp hi).1
    refine (h.item i it hi).congr (hentry i (by omega)) fun k hk => himage _ ?_
    have hend := layoutEnd_take_le items (i + 1)
    rw [layoutEnd_take_succ hi] at hend
    have hfits := h.fits
    unfold diskSects at hfits
    omega
  · refine Eq.trans (load32_congr fun k hk => ?_) (h.unused i hi hi')
    rw [Nat.add_assoc, Nat.add_assoc]
    exact hentry i hi' (60 + k) (by omega)

section

variable {items : List Item} {dir data : Bytes}

/-- The files of the directory are the file arguments. -/
theorem Shows.isFile_iff (h : Shows items dir data) (hi : i < alfsMaxFiles) :
    IsFile dir i ↔ ∃ path bytes, items[i]? = some (.file path bytes) := by
  by_cases hlt : i < items.length
  · have hget : items[i]? = some items[i] := List.getElem?_eq_getElem hlt
    obtain ⟨hused, hdir⟩ := entryUsed_of_flags (h.item i _ hget).flags
    rw [IsFile, hused, hdir, hget]
    cases items[i] <;> simp
  · have hzero := entryUsed_of_flags (h.unused i (by omega) hi)
    rw [IsFile, hzero.1, List.getElem?_eq_none (by omega)]
    simp

/-- Start, size and end of a file argument. -/
theorem Shows.extent (h : Shows items dir data) {path : CStr} {bytes : List UInt8}
    (hi : items[i]? = some (.file path bytes)) :
    entryStart dir i = layoutEnd (items.take i) ∧
      entryStart dir i + sectorsOf (entrySize dir i) = layoutEnd (items.take (i + 1)) ∧
      entryEnd dir i = layoutEnd (items.take (i + 1)) := by
  obtain ⟨hstart, hsize, -⟩ := (h.item i _ hi).content path bytes rfl
  have hnext : layoutEnd (items.take (i + 1)) =
      layoutEnd (items.take i) + sectorsOf bytes.length := layoutEnd_take_succ hi
  have hle := Nat.le_trans (layoutEnd_take_le items (i + 1)) h.fits
  have hend : entryEnd dir i = layoutEnd (items.take (i + 1)) := by
    unfold entryEnd
    unfold sectorsOf diskSects at *
    rw [hstart, hsize, Nat.mod_eq_of_lt (show bytes.length + 511 < 2 ^ 32 by omega),
      Nat.mod_eq_of_lt (by omega), hnext]
  exact ⟨hstart, by rw [hstart, hsize, hnext], hend⟩

theorem Shows.wellFormed (h : Shows items dir data) : WellFormed dir where
  start := fun i hi hf => by
    obtain ⟨path, bytes, hget⟩ := (h.isFile_iff hi).mp hf
    rw [(h.extent hget).1]
    exact Nat.le_add_right _ _
  disjoint := fun i hi j hj hne hfi hfj t => by
    obtain ⟨_, _, hgi⟩ := (h.isFile_iff hi).mp hfi
    obtain ⟨_, _, hgj⟩ := (h.isFile_iff hj).mp hfj
    obtain ⟨hsi, hei, -⟩ := h.extent hgi
    obtain ⟨hsj, hej, -⟩ := h.extent hgj
    unfold InExtent
    rw [hei, hej, hsi, hsj]
    rcases Nat.lt_or_gt_of_ne hne with hlt | hlt
    · have := layoutEnd_take_mono items (show i + 1 ≤ j by omega)
      omega
    · have := layoutEnd_take_mono items (show j + 1 ≤ i by omega)
      omega

/-- The kernel would allocate where `mkfs` stopped. -/
theorem Shows.highWater_eq (h : Shows items dir data) : highWater dir = layoutEnd items := by
  apply Nat.le_antisymm
  · refine highWater_le (Nat.le_add_right _ _) fun i hi hf => ?_
    obtain ⟨_, _, hget⟩ := (h.isFile_iff hi).mp hf
    rw [(h.extent hget).2.2]
    exact layoutEnd_take_le items _
  · -- item by item: a directory does not move the end, a file ends below the mark
    have hprefix : ∀ i ≤ items.length, layoutEnd (items.take i) ≤ highWater dir := by
      intro i
      induction i with
      | zero => exact fun _ => dataStart_le_highWater dir
      | succ i ih =>
        intro hlt
        have hget : items[i]? = some items[i] := List.getElem?_eq_getElem (by omega)
        cases hit : items[i] with
        | dir path =>
          rw [layoutEnd_take_succ hget, hit]
          exact ih (by omega)
        | file path bytes =>
          rw [hit] at hget
          have hi : i < alfsMaxFiles := by have := h.count; omega
          rw [← (h.extent hget).2.2]
          exact entryEnd_le_highWater hi ((h.isFile_iff hi).mpr ⟨path, bytes, hget⟩)
    simpa using hprefix items.length le_rfl

/-- `alfs_read` delivers the bytes of a file argument. -/
theorem Shows.alfsRead {fs : Fs} (h : Shows items fs.dir fs.disk.data) (hr : fs.ready)
    (hd : fs.disk.script = []) {path : CStr} {bytes : List UInt8}
    (hi : items[i]? = some (.file path bytes)) {max : Nat} (hmax : bytes.length ≤ max) :
    (AliOS.alfsRead fs i max).1 = some bytes := by
  have hlt : i < alfsMaxFiles := by
    have := (List.getElem?_eq_some_iff.mp hi).1
    have := h.count
    omega
  obtain ⟨hstart, hsize, hslice⟩ := (h.item i _ hi).content path bytes rfl
  have hend := (h.extent hi).2.1
  have hle := Nat.le_trans (layoutEnd_take_le items (i + 1)) h.fits
  have hused := ((h.isFile_iff hlt).mpr ⟨path, bytes, hi⟩).1
  rw [alfsRead_quiet fs hd hr hlt hused (by unfold diskSects at hle; omega), hstart, hsize,
    Nat.min_eq_left hmax, hslice]

/-- The entry made for an argument, as the kernel sees it. -/
theorem Shows.argument {fs : Fs} (h : Shows items fs.dir fs.disk.data) (hr : fs.ready)
    (hd : fs.disk.script = []) (hi : items[i]? = some it) {arg : CStr}
    (hparse : mkfsParse host arg = .ok it) (harg : arg.length ≤ 511) :
    ∃ left fspath, arg.cut 58 = some (left, fspath) ∧
      entryUsed fs.dir i ∧ nameOf fs.dir i = fspath.chars ∧
      (alfsIsDir fs i ↔ left = letterD) ∧
      (left ≠ letterD → ∃ bytes, host left = some bytes ∧
        ∀ max ≥ bytes.length, (AliOS.alfsRead fs i max).1 = some bytes) := by
  obtain ⟨left, hcut, -, hkind⟩ := mkfsParse_ok hparse
  rw [CStr.take_of_length_le harg] at hcut
  obtain ⟨hused, hdir⟩ := entryUsed_of_flags (h.item i it hi).flags
  have hlt : i < alfsMaxFiles := by
    have := (List.getElem?_eq_some_iff.mp hi).1
    have := h.count
    omega
  have hisDir : alfsIsDir fs i = entryDir fs.dir i := by
    unfold alfsIsDir
    rw [if_neg (by simp [hr]; omega), Int.toNat_natCast]
  refine ⟨left, it.path, hcut, hused.trans it.flags_used, (h.item i it hi).name, ?_⟩
  rw [hisDir, hdir]
  obtain ⟨hit, hleft⟩ | ⟨bytes, hit, hleft, hhost⟩ := hkind
  · rw [hit]
    simp [hleft]
  · refine ⟨?_, fun _ => ⟨bytes, hhost, fun max hmax => h.alfsRead hr hd (hit ▸ hi) hmax⟩⟩
    rw [hit]
    simp [hleft]

end

/-- **`mkfs` and the kernel agree on the format**: the image of an accepted argument
list mounts, entry `i` is argument `i`, files read back byte for byte, extents
lie apart and within the 256 sectors, and `high_water` is where `mkfs` stopped. -/
theorem mkfs_image_mounts {host : CStr → Option (List UInt8)} {args : List CStr} {st : Mkfs}
    (hargs : ∀ arg ∈ args, arg.length ≤ 511) (hok : mkfs host args = .ok st) {fs : Fs}
    (hdrive : fs.disk.script = [])
    (himage : ∀ k < 512 * diskSects, fs.disk.data k = st.disk k) :
    (alfsInit fs).1 = 0 ∧
    (∀ i arg, args[i]? = some arg → ∃ left fspath, arg.cut 58 = some (left, fspath) ∧
      entryUsed (alfsInit fs).2.dir i = true ∧ nameOf (alfsInit fs).2.dir i = fspath.chars ∧
      (alfsIsDir (alfsInit fs).2 i = true ↔ left = letterD) ∧
      (left ≠ letterD → ∃ bytes, host left = some bytes ∧
        ∀ max ≥ bytes.length, (alfsRead (alfsInit fs).2 i max).1 = some bytes)) ∧
    WellFormed (alfsInit fs).2.dir ∧
    (∀ i < alfsMaxFiles, IsFile (alfsInit fs).2.dir i →
      alfsDataStart ≤ entryStart (alfsInit fs).2.dir i ∧
      entryStart (alfsInit fs).2.dir i + sectorsOf (entrySize (alfsInit fs).2.dir i) ≤ diskSects) ∧
    highWater (alfsInit fs).2.dir = st.nextSect := by
  unfold mkfs at hok
  split at hok
  · simp at hok
  · rename_i hcount
    obtain ⟨items, hparse, hlaid⟩ := laid_nil.foldlM (by simpa using not_lt.mp hcount) hok
    rw [nil_append] at hlaid
    have hlen : args.length = items.length := hparse.length_eq
    obtain ⟨super, dir, hinit, hshows⟩ := hlaid.mount (by omega) hdrive himage
    rw [hinit]
    refine ⟨rfl, fun i arg harg => ?_, hshows.wellFormed, fun i hi hf => ?_, ?_⟩
    · obtain ⟨hlt, rfl⟩ := List.getElem?_eq_some_iff.mp harg
      have hget : items[i]? = some items[i] := List.getElem?_eq_getElem (by omega)
      exact @Shows.argument i _ host items
        { ready := true, super := super, dir := dir, disk := fs.disk }
        hshows rfl hdrive hget _ (hparse.get hlt (by omega)) (hargs _ (getElem_mem hlt))
    · obtain ⟨_, _, hget⟩ := (hshows.isFile_iff hi).mp hf
      obtain ⟨-, hend, -⟩ := hshows.extent hget
      rw [hend]
      exact ⟨hshows.wellFormed.start i hi hf,
        Nat.le_trans (layoutEnd_take_le items _) hshows.fits⟩
    · rw [hlaid.nextSect]
      exact hshows.highWater_eq

/-- A host with the file `f` and nothing else. -/
def oneFileHost (path : CStr) : Option (List UInt8) :=
  if path.chars = [102] then some [1, 2, 3] else none

/-- `d:b f:a`. -/
def dirAndFile : List CStr := [⟨[100, 58, 98], by simp⟩, ⟨[102, 58, 97], by simp⟩]

/-- The image of a directory and a file of three bytes. -/
theorem mkfs_image_mounts_pair : ∃ st fs, mkfs oneFileHost dirAndFile = .ok st ∧
    fs.disk.data = st.disk ∧ (alfsInit fs).1 = 0 ∧ alfsIsDir (alfsInit fs).2 0 = true ∧
    (alfsRead (alfsInit fs).2 1 3).1 = some [1, 2, 3] := by
  obtain ⟨st, hok⟩ : ∃ st, mkfs oneFileHost dirAndFile = .ok st := ⟨_, rfl⟩
  obtain ⟨hinit, hentries, -⟩ := mkfs_image_mounts (by decide) hok
    (show (Fs.mk false (fun _ => 0) (fun _ => 0) ⟨st.disk, []⟩).disk.script = [] from rfl)
    (fun _ _ => rfl)
  obtain ⟨left, _, hcut, -, -, hdir, -⟩ := hentries 0 _ rfl
  obtain ⟨left', _, hcut', -, -, -, hread⟩ := hentries 1 _ rfl
  have hleft : left = letterD := by
    cases hcut
    rfl
  have hne : left' ≠ letterD := by
    cases hcut'
    simp [letterD]
  obtain ⟨bytes, hhost, hmax⟩ := hread hne
  have hbytes : bytes = [1, 2, 3] := by
    cases hcut'
    simpa [oneFileHost] using hhost.symm
  exact ⟨st, _, hok, rfl, hinit, hdir.mpr hleft, hbytes ▸ hmax 3 (by simp [hbytes])⟩

end AliOS
