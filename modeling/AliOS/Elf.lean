import AliOS.Syscall
import AliOS.Uvm

/-!
# AliOS.Elf

The ELF loader (`kernel/elf.c`).  `elf_load` reads the file header and the program headers
into two static buffers and maps the pages of each segment, one fresh frame a page: zeroed,
filled with the part of the file that overlaps it, and entered into the page directory.

The buffers are static.  A read that ends at the end of the file fills only a part of them;
the rest is what an earlier load has left there, and the loader does not look at the number
of bytes it got.  So the buffers are part of the state here.

The segment loop carries along the addresses that it has mapped; the code has no such list.
-/

namespace AliOS

open Lib

/-! ## headers -/

def elfClass32 : Nat := 1
def etExec : Nat := 2
def em386 : Nat := 3
def ptLoad : Nat := 1
def pfW : Nat := 2

/-- Program headers that are processed at most. -/
def maxPhdr : Nat := 8

def hdrBufSize : Nat := 512

/-- `sizeof(Elf32_Phdr)` -/
def phdrSize : Nat := 32

/-! The fields of `Elf32_Ehdr` that the loader looks at. -/

def eType (eh : Bytes) : Nat := load16 eh 16
def eMachine (eh : Bytes) : Nat := load16 eh 18
def eEntry (eh : Bytes) : Nat := load32 eh 24
def ePhoff (eh : Bytes) : Nat := load32 eh 28
def ePhentsize (eh : Bytes) : Nat := load16 eh 42
def ePhnum (eh : Bytes) : Nat := load16 eh 44

/-- The checks of `elf_load` on the file header. -/
def validHeader (eh : Bytes) : Bool :=
  eh 0 == 0x7F && eh 1 == 0x45 && eh 2 == 0x4C && eh 3 == 0x46 && (eh 4).toNat == elfClass32 &&
    eType eh == etExec && eMachine eh == em386 && ePhentsize eh == phdrSize &&
    !(ePhnum eh == 0 || ePhnum eh > maxPhdr)

/-- `Elf32_Phdr`, without the two fields nothing reads. -/
structure Phdr where
  type : Nat
  offset : Nat
  vaddr : Nat
  filesz : Nat
  memsz : Nat
  flags : Nat
deriving DecidableEq

/-- `ph_buf[i]` -/
def phdr (phBuf : Bytes) (i : Nat) : Phdr where
  type := load32 phBuf (phdrSize * i)
  offset := load32 phBuf (phdrSize * i + 4)
  vaddr := load32 phBuf (phdrSize * i + 8)
  filesz := load32 phBuf (phdrSize * i + 16)
  memsz := load32 phBuf (phdrSize * i + 20)
  flags := load32 phBuf (phdrSize * i + 24)

/-- `hdr_buf` and `ph_buf`. -/
structure ElfBufs where
  hdrBuf : Bytes
  phBuf : Bytes

/-- What a read leaves in a buffer. -/
def fillBuf (buf : Bytes) (bytes : List UInt8) : Bytes :=
  blit buf 0 bytes.length fun i => bytes.getD i 0

/-- The first part of `elf_load`, up to the segments: the file and its two headers.  `none`
is the return value -1. -/
def elfHeaders (fs : Fs) (b : ElfBufs) (filename : CStr) : Option Int × Fs × ElfBufs :=
  let idx := alfsFind fs (some filename)
  if idx < 0 then (none, fs, b)
  else
    let res := alfsPread fs idx hdrBufSize 0
    let b := { b with hdrBuf := fillBuf b.hdrBuf res.1.2 }
    if res.1.1 < 0 then (none, res.2, b)
    else if !validHeader b.hdrBuf then (none, res.2, b)
    else
      let res := alfsPread res.2 idx (ePhnum b.hdrBuf * phdrSize) (ePhoff b.hdrBuf)
      let b := { b with phBuf := fillBuf b.phBuf res.1.2 }
      if res.1.1 < 0 then (none, res.2, b) else (some idx, res.2, b)

/-! ## segments -/

/-- The first page of a segment. -/
def Phdr.vaPage (ph : Phdr) : Nat := ph.vaddr / 4096 * 4096

/-- The end of its last page, in 32-bit arithmetic. -/
def Phdr.vaEnd (ph : Phdr) : Nat := (ph.vaddr + ph.memsz + 4095) % 2 ^ 32 / 4096 * 4096

/-- `file_va_hi`: the end of what comes from the file. -/
def Phdr.fileVaHi (ph : Phdr) : Nat := (ph.vaddr + ph.filesz) % 2 ^ 32

def Phdr.pteFlags (ph : Phdr) : Nat :=
  if hasFlag ph.flags pfW then pageUser ||| pageWrite else pageUser

def Phdr.copyLo (ph : Phdr) (va : Nat) : Nat := if va > ph.vaddr then va else ph.vaddr

def Phdr.copyHi (ph : Phdr) (va : Nat) : Nat :=
  if (va + 4096) % 2 ^ 32 < ph.fileVaHi then (va + 4096) % 2 ^ 32 else ph.fileVaHi

/-- The read from the file for the page at `va`, if it has a part of it. -/
def Phdr.readPage (ph : Phdr) (fs : Fs) (idx : Int) (va : Nat) : (Int × List UInt8) × Fs :=
  if ph.copyLo va < ph.copyHi va then
    alfsPread fs idx (ph.copyHi va - ph.copyLo va)
      ((ph.offset + (ph.copyLo va - ph.vaddr)) % 2 ^ 32)
  else ((0, []), fs)

def zeroPage (m : Machine) (phys : Nat) : Option Machine :=
  forRangeM (fun i m => kstore8 m (phys + i) 0) 0 4096 m

/-- The state of the segment loop.  `failed` says that `elf_load` has returned -1. -/
structure Image where
  failed : Bool
  machine : Machine
  fs : Fs
  mapped : List Nat

/-- Body of the loop over the pages of a segment. -/
def elfPage (pd : Nat) (idx : Int) (ph : Phdr) (va : Nat) (st : Image) : Option Image :=
  if st.failed then some st
  else
    let phys := st.machine.alloc.1
    let m := st.machine.alloc.2
    if phys = 0 then some { st with failed := true, machine := m }
    else (zeroPage m phys).bind fun m =>
      let res := ph.readPage st.fs idx va
      (storeBytes m (phys + (ph.copyLo va - va)) res.1.2).bind fun m =>
        if res.1.1 < 0 then some { st with failed := true, machine := m, fs := res.2 }
        else (uvmMap m pd va phys ph.pteFlags).map fun r =>
          if r.1 < 0 then { st with failed := true, machine := r.2, fs := res.2 }
          else { failed := false, machine := r.2, fs := res.2, mapped := st.mapped ++ [va] }

/-- Body of the loop over the program headers. -/
def elfSegment (pd : Nat) (idx : Int) (phBuf : Bytes) (i : Nat) (st : Image) : Option Image :=
  let ph := phdr phBuf i
  if st.failed then some st
  else if ph.type ≠ ptLoad then some st
  else if ph.memsz = 0 then some st
  else if ¬UserAddr ph.vaddr then some { st with failed := true }
  else forRangeM (fun n => elfPage pd idx ph (ph.vaPage + 4096 * n)) 0
    ((ph.vaEnd - ph.vaPage) / 4096) st

/-! ## elf_load -/

/-- The state the loader works on. -/
structure Loader where
  machine : Machine
  fs : Fs
  bufs : ElfBufs

/-- What `elf_load` returns: the entry point that goes to `*entry_out`, or `none` for -1,
and the addresses that have been mapped. -/
structure ElfResult where
  entry : Option Nat
  mapped : List Nat

def elfLoad (s : Loader) (pd : Nat) (filename : CStr) : Option (ElfResult × Loader) :=
  match elfHeaders s.fs s.bufs filename with
  | (none, fs, b) => some (⟨none, []⟩, { s with fs := fs, bufs := b })
  | (some idx, fs, b) =>
    (forRangeM (elfSegment pd idx b.phBuf) 0 (ePhnum b.hdrBuf) ⟨false, s.machine, fs, []⟩).map
      fun st =>
      (⟨if st.failed then none else some (eEntry b.hdrBuf), st.mapped⟩, ⟨st.machine, st.fs, b⟩)

/-! ## elf_push_args -/

def userStackVbase : Nat := 0xBFFFF000

/-- The state of `elf_push_args`: its variables and the bytes it has stored into the page.
Nothing keeps the indices inside the page, so they are integers. -/
structure ArgStack where
  argc : Nat
  top : Int
  strVaddrs : Nat → Nat
  stores : List (Int × UInt8)

/-- The address in user space of the index `top`. -/
def ArgStack.vaddr (s : ArgStack) : Nat := ((userStackVbase + s.top) % 2 ^ 32).toNat

/-- Bytes stored from `top` on. -/
def ArgStack.write (s : ArgStack) (bytes : List UInt8) : ArgStack :=
  { s with stores := s.stores ++ bytes.mapIdx fun k b => (s.top + k, b) }

/-- `top -= 4; *(uint32_t *)(stack_page + top) = w;` -/
def ArgStack.push (s : ArgStack) (w : Nat) : ArgStack :=
  { s with top := s.top - 4 }.write (slice (wordBytes w) 0 4)

/-- The loop over the strings, with the strings below `i` still to copy. -/
def pushStrings (argv : Nat → CStr) : Nat → ArgStack → ArgStack
  | 0, s => s
  | i + 1, s =>
    let str := (argv i).chars ++ [0]
    let s' : ArgStack := { s with top := s.top - str.length }
    if s'.top < 64 then { s with argc := i }
    else pushStrings argv i
      ({ s' with strVaddrs := Function.update s.strVaddrs i s'.vaddr }.write str)

/-- `elf_push_args`: the stack pointer and the stores into the page.  `strVaddrs` is what the
array holds before it is filled. -/
def elfPushArgs (argc : Nat) (argv : Nat → CStr) (strVaddrs : Nat → Nat) :
    Nat × List (Int × UInt8) :=
  let argc := if argc > 15 then 15 else argc
  let s := pushStrings argv argc ⟨argc, 4095, strVaddrs, []⟩
  -- `top &= ~3`, then the array with its NULL
  let s := { s with top := s.top / 4 * 4 }.push 0
  let s := forRange (fun k s => s.push (s.strVaddrs (s.argc - 1 - k))) 0 s.argc s
  let s := ((s.push s.vaddr).push s.argc).push 0
  (s.vaddr, s.stores)

end AliOS
