import AliOS.Ata
import AliOS.Lib.CStr

/-!
# AliOS.Alfs

AliFS (`kernel/alfs.c`): a superblock in sector 0, a directory of 48 entries of
64 bytes in sectors 1 to 6, and file data, one contiguous extent per file, from
sector 7 on.  The kernel keeps the directory in memory (`fs_dir`) and writes
the one sector of a changed entry back.

`fs_dir` is modelled as the bytes it is: an entry's name, start, size and flags
are read from and stored into the byte array at the offsets of the packed
`alfs_dirent_t`, so "byte for byte" statements about memory and disk need no
translation.  `dir k` for `k ≥ 3072` is whatever follows the array in memory:
`streq` runs on past an entry whose name has no terminator.

Return values are integers as in the source, -1 for failure.  The buffer of
`alfs_read` is the list of bytes delivered, `none` when the call returns -1;
`alfs_pread` has its return value and the bytes it has stored by then.  The
bounce buffer `sbuf` is always filled before it is read,
so it is local to each use.
-/

namespace AliOS

open Lib

/-! ## constants and state -/

def alfsMagic : Nat := 0x414C4653
def alfsNameMax : Nat := 52
def alfsDirStart : Nat := 1
def alfsDirSects : Nat := 6
def alfsDataStart : Nat := 7
def alfsMaxFiles : Nat := 48
def alfsFlagUsed : Nat := 1
def alfsFlagDir : Nat := 2

/-- The static variables of `alfs.c`, and the drive. -/
structure Fs where
  ready : Bool
  super : Bytes
  dir : Bytes
  disk : Disk

/-! ## directory entries -/

/-- `fs_dir[i].name`, as a pointer. -/
def entryName (dir : Bytes) (i : Nat) : Bytes := fun k => dir (64 * i + k)

def entryStart (dir : Bytes) (i : Nat) : Nat := load32 dir (64 * i + 52)

def entrySize (dir : Bytes) (i : Nat) : Nat := load32 dir (64 * i + 56)

def entryFlags (dir : Bytes) (i : Nat) : Nat := load32 dir (64 * i + 60)

def entryUsed (dir : Bytes) (i : Nat) : Bool := entryFlags dir i &&& alfsFlagUsed != 0

def entryDir (dir : Bytes) (i : Nat) : Bool := entryFlags dir i &&& alfsFlagDir != 0

/-- `fs_dir[i].flags = flags`. -/
def setFlags (dir : Bytes) (i flags : Nat) : Bytes := store32 dir (64 * i + 60) flags

/-- `strncpy_name`: at most 51 characters, the rest of the field zero. -/
def strncpyName (dir : Bytes) (i : Nat) (name : CStr) : Bytes :=
  blit dir (64 * i) alfsNameMax fun k => if k < alfsNameMax - 1 then name.get k else 0

/-- The four assignments that fill in an entry. -/
def setEntry (dir : Bytes) (i : Nat) (name : CStr) (start size flags : Nat) : Bytes :=
  let dir := strncpyName dir i name
  let dir := store32 dir (64 * i + 52) start
  let dir := store32 dir (64 * i + 56) size
  setFlags dir i flags

/-- `streq(a, b)` on the memory behind `a` and the string `b`. -/
def streq (a : Bytes) : List UInt8 → Bool
  | [] => a 0 == 0
  | c :: cs => if a 0 ≠ 0 ∧ a 0 = c then streq (fun k => a (k + 1)) cs else a 0 == c

/-- The first used entry with this name. -/
def findEntry (dir : Bytes) (name : CStr) : Option Nat :=
  (List.range' 0 alfsMaxFiles).find? fun i => entryUsed dir i && streq (entryName dir i) name.chars

/-- The first entry not in use. -/
def firstUnused (dir : Bytes) : Option Nat :=
  (List.range' 0 alfsMaxFiles).find? fun i => !entryUsed dir i

/-! ## reading -/

/-- The C return value of an optional slot. -/
def slotOrFail : Option Nat → Int
  | some i => i
  | none => -1

def alfsInit (fs : Fs) : Int × Fs :=
  match ataRead fs.disk 0 1 with
  | (none, disk) => (-1, { fs with disk := disk })
  | (some bytes, disk) =>
    let super : Bytes := fun k => bytes.getD k 0
    if load32 super 0 ≠ alfsMagic then (-1, { fs with super := super, disk := disk })
    else match ataRead disk alfsDirStart alfsDirSects with
      | (none, disk) => (-1, { fs with super := super, disk := disk })
      | (some bytes, disk) =>
        (0, { ready := true, super := super,
              dir := blit fs.dir 0 (sectorSize * alfsDirSects) fun k => bytes.getD k 0,
              disk := disk })

def alfsFind (fs : Fs) (name : Option CStr) : Int :=
  match name with
  | none => -1
  | some name => if !fs.ready then -1 else slotOrFail (findEntry fs.dir name)

def alfsSize (fs : Fs) (idx : Int) : Nat :=
  if !fs.ready ∨ idx < 0 ∨ idx ≥ alfsMaxFiles then 0
  else if !entryUsed fs.dir idx.toNat then 0
  else entrySize fs.dir idx.toNat

def alfsIsDir (fs : Fs) (idx : Int) : Bool :=
  if !fs.ready ∨ idx < 0 ∨ idx ≥ alfsMaxFiles then false
  else entryDir fs.dir idx.toNat

/-- Sectors in one ATA command: at most 255. -/
def batchOf (n : Nat) : Nat := if n > 255 then 255 else n

/-- The loop of `alfs_read` over complete sectors, 255 per ATA command. -/
def readSectors (lba full done : Nat) (acc : List UInt8) (d : Disk) :
    Option (List UInt8) × Disk :=
  if _h : done < full then
    match ataRead d ((lba + done) % 2 ^ 32) (batchOf (full - done)) with
    | (none, d) => (none, d)
    | (some bytes, d) => readSectors lba full (done + batchOf (full - done)) (acc ++ bytes) d
  else (some acc, d)
termination_by full - done
decreasing_by
  simp only [batchOf]
  split <;> omega

def alfsRead (fs : Fs) (idx : Int) (max : Nat) : Option (List UInt8) × Fs :=
  if !fs.ready ∨ idx < 0 ∨ idx ≥ alfsMaxFiles then (none, fs)
  else if !entryUsed fs.dir idx.toNat then (none, fs)
  else
    let size := entrySize fs.dir idx.toNat
    let bytes := if size < max then size else max
    if bytes = 0 then (some [], fs)
    else
      let full := bytes / 512
      let tail := bytes % 512
      let lba := entryStart fs.dir idx.toNat
      match readSectors lba full 0 [] fs.disk with
      | (none, d) => (none, { fs with disk := d })
      | (some dst, d) =>
        if tail = 0 then (some dst, { fs with disk := d })
        else match ataRead d ((lba + full) % 2 ^ 32) 1 with
          | (none, d) => (none, { fs with disk := d })
          | (some sbuf, d) => (some (dst ++ sbuf.take tail), { fs with disk := d })

/-- Name and size of a used entry; `none` is the return value 0. -/
def alfsStat (fs : Fs) (idx : Int) : Option (List UInt8 × Nat) :=
  if !fs.ready ∨ idx < 0 ∨ idx ≥ alfsMaxFiles then none
  else if !entryUsed fs.dir idx.toNat then none
  else some (slice fs.dir (64 * idx.toNat) alfsNameMax, entrySize fs.dir idx.toNat)

/-- `(int)n` of an unsigned 32-bit number. -/
def asInt (n : Nat) : Int := if n < 2 ^ 31 then n else n - 2 ^ 32

/-- The loop of `alfs_pread`: whole sectors where the position is aligned, the
bounce buffer elsewhere. -/
def preadLoop (start fileOff remaining : Nat) (acc : List UInt8) (d : Disk) :
    (Bool × List UInt8) × Disk :=
  if _h : remaining > 0 then
    let sectIdx := fileOff / 512
    let sectOff := fileOff % 512
    if sectOff = 0 ∧ remaining ≥ 512 then
      let full := batchOf (remaining / 512)
      match ataRead d ((start + sectIdx) % 2 ^ 32) full with
      | (none, d') => ((false, acc ++ ataDelivered d ((start + sectIdx) % 2 ^ 32) full), d')
      | (some bytes, d) =>
        preadLoop start (fileOff + full * 512) (remaining - full * 512) (acc ++ bytes) d
    else
      let chunk := if 512 - sectOff > remaining then remaining else 512 - sectOff
      match ataRead d ((start + sectIdx) % 2 ^ 32) 1 with
      | (none, d) => ((false, acc), d)
      | (some sbuf, d) =>
        preadLoop start (fileOff + chunk) (remaining - chunk)
          (acc ++ (sbuf.drop sectOff).take chunk) d
  else ((true, acc), d)
termination_by remaining
decreasing_by
  · simp only [batchOf]
    split <;> omega
  · split <;> omega

/-- Return value and the bytes stored into the buffer. -/
def alfsPread (fs : Fs) (idx : Int) (len off : Nat) : (Int × List UInt8) × Fs :=
  if !fs.ready ∨ idx < 0 ∨ idx ≥ alfsMaxFiles then ((-1, []), fs)
  else if !entryUsed fs.dir idx.toNat then ((-1, []), fs)
  else
    let size := entrySize fs.dir idx.toNat
    if off ≥ size then ((0, []), fs)
    else
      let avail := size - off
      let bytes := if len < avail then len else avail
      if bytes = 0 then ((0, []), fs)
      else
        let res := preadLoop (entryStart fs.dir idx.toNat) off bytes [] fs.disk
        ((if res.1.1 then asInt bytes else -1, res.1.2), { fs with disk := res.2 })

/-! ## writing -/

/-- `dir_flush_slot`: write the one directory sector that contains entry `i`. -/
def dirFlushSlot (fs : Fs) (i : Nat) : Bool × Fs :=
  let sectorWithinDir := i / 8
  let res := ataWrite fs.disk (alfsDirStart + sectorWithinDir) 1
    fun k => fs.dir (sectorWithinDir * 512 + k)
  (res.1, { fs with disk := res.2 })

/-- End of entry `i`'s extent, in 32-bit arithmetic. -/
def entryEnd (dir : Bytes) (i : Nat) : Nat :=
  (entryStart dir i + (entrySize dir i + 511) % 2 ^ 32 / 512) % 2 ^ 32

/-- First sector behind the data of every used file. -/
def highWater (dir : Bytes) : Nat :=
  (List.range' 0 alfsMaxFiles).foldl
    (fun hwm i =>
      if !entryUsed dir i then hwm
      else if entryDir dir i then hwm
      else if entryEnd dir i > hwm then entryEnd dir i else hwm)
    alfsDataStart

/-- The loop of `alfs_write` over complete sectors. -/
def writeSectors (src : Bytes) (lba full done : Nat) (d : Disk) : Bool × Disk :=
  if _h : done < full then
    match ataWrite d ((lba + done) % 2 ^ 32) (batchOf (full - done)) fun k =>
      src (done * 512 + k) with
    | (false, d) => (false, d)
    | (true, d) => writeSectors src lba full (done + batchOf (full - done)) d
  else (true, d)
termination_by full - done
decreasing_by
  simp only [batchOf]
  split <;> omega

/-- All data transfers of `alfs_write`: complete sectors, then the last partial
one (or one empty sector for an empty file) through the bounce buffer. -/
def writeData (src : Bytes) (lba size : Nat) (d : Disk) : Bool × Disk :=
  let full := size / 512
  let tail := size % 512
  match writeSectors src lba full 0 d with
  | (false, d) => (false, d)
  | (true, d) =>
    if tail ≠ 0 ∨ size = 0 then
      ataWrite d ((lba + full) % 2 ^ 32) 1 fun k => if k < tail then src (full * 512 + k) else 0
    else (true, d)

/-- `alfs_write` once the slot is chosen and an old version is unlinked. -/
def writeSlot (fs : Fs) (slot : Nat) (name : CStr) (src : Bytes) (size : Nat) : Int × Fs :=
  let start := highWater fs.dir
  match writeData src start size fs.disk with
  | (false, d) => (-1, { fs with disk := d })
  | (true, d) =>
    let fs := { fs with disk := d, dir := setEntry fs.dir slot name start size alfsFlagUsed }
    match dirFlushSlot fs slot with
    | (false, fs) => (-1, fs)
    | (true, fs) => (slot, fs)

/-- `alfs_write(name, buf, size)`; `none` is a NULL pointer. -/
def alfsWrite (fs : Fs) (name : Option CStr) (buf : Option Bytes) (size : Nat) : Int × Fs :=
  match name with
  | none => (-1, fs)
  | some name =>
    if !fs.ready ∨ (buf.isNone ∧ size > 0) then (-1, fs)
    else
      let src := buf.getD fun _ => 0
      match findEntry fs.dir name with
      | some i =>
        if entryDir fs.dir i then (-1, fs)
        else writeSlot { fs with dir := setFlags fs.dir i 0 } i name src size
      | none =>
        match firstUnused fs.dir with
        | none => (-1, fs)
        | some i => writeSlot fs i name src size

def alfsMkdir (fs : Fs) (path : Option CStr) : Int × Fs :=
  match path with
  | none => (-1, fs)
  | some path =>
    if !fs.ready then (-1, fs)
    else if (findEntry fs.dir path).isSome then (-1, fs)
    else match firstUnused fs.dir with
      | none => (-1, fs)
      | some i =>
        let fs := { fs with dir := setEntry fs.dir i path 0 0 (alfsFlagUsed ||| alfsFlagDir) }
        match dirFlushSlot fs i with
        | (false, fs) => (-1, fs)
        | (true, fs) => (i, fs)

def alfsDelete (fs : Fs) (name : Option CStr) : Int × Fs :=
  match name with
  | none => (-1, fs)
  | some name =>
    if !fs.ready then (-1, fs)
    else match findEntry fs.dir name with
      | none => (-1, fs)
      | some i =>
        match dirFlushSlot { fs with dir := setFlags fs.dir i 0 } i with
        | (false, fs) => (-1, fs)
        | (true, fs) => (0, fs)

end AliOS
