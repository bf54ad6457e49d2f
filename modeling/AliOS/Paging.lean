import AliOS.Lib.Frames
import AliOS.Pmm

/-!
# AliOS.Paging

Paging on the i386 as the kernel uses it (`kernel/paging.c`): two levels of
1024 words, translated by the processor from the page directory in CR3.  The
kernel reaches physical memory through page tables, too: it takes a physical
address below 128 MB for a virtual one and relies on the identity map in
PDE 0 to 31.  `kload32` and `kstore32` are such ring-0 accesses; an address
without translation is a page fault the kernel does not survive, `none`.

The kernel's own variables are reached through the second map at 3 GB.  That
map is taken for granted: `page_dir` is read and written where it lies in
physical memory.  Stale TLB entries are not modelled: the code reloads CR3 or
uses `invlpg` after every change of a live entry.
-/

namespace AliOS

open Lib

/-! ## entries -/

def pagePresent : Nat := 1
def pageWrite : Nat := 2
def pageUser : Nat := 4
/-- A bit the processor ignores: copy on write. -/
def pageCow : Nat := 0x200

/-- `w & flag`, as a condition. -/
def hasFlag (w flag : Nat) : Bool := w &&& flag != 0

/-- `w & ~0xFFF`: the frame an entry points to, as an address. -/
def frameAddr (w : Nat) : Nat := w / 4096 * 4096

/-! ## the machine -/

/-- Physical memory, the frame allocator, the control registers, and where
`page_dir` lies in physical memory. -/
structure Machine where
  mem : Bytes
  pmm : Pmm
  cr0 : Nat
  cr3 : Nat
  pageDir : Nat

/-- CR0.WP: ring 0 respects read-only pages. -/
def Machine.writeProtect (m : Machine) : Bool := m.cr0.testBit 16

/-- CR0 from the boot code on: on top of what the firmware left, `boot.asm` sets PE
and `entry32.asm` sets PG. -/
def bootCr0 (firmware : Nat) : Nat := (firmware ||| 1) ||| 0x80000000

/-- The processor's walk: directory entry and table entry of an address, if
both are present. -/
def walk (mem : Bytes) (pd v : Nat) : Option (Nat × Nat) :=
  let pde := load32 mem (pd + 4 * (v / 2 ^ 22))
  if hasFlag pde pagePresent then
    let pte := load32 mem (frameAddr pde + 4 * (v / 2 ^ 12 % 1024))
    if hasFlag pte pagePresent then some (pde, pte) else none
  else none

/-- Physical address of a translated address. -/
def physOf (pte v : Nat) : Nat := frameAddr pte + v % 4096

/-- Where a ring-0 read of `v` goes. -/
def Machine.kread (m : Machine) (v : Nat) : Option Nat :=
  (walk m.mem m.cr3 v).map fun e => physOf e.2 v

/-- Where a ring-0 write to `v` goes: read-only pages stop it only with CR0.WP. -/
def Machine.kwrite (m : Machine) (v : Nat) : Option Nat :=
  (walk m.mem m.cr3 v).bind fun e =>
    if m.writeProtect && !(hasFlag e.1 pageWrite && hasFlag e.2 pageWrite) then none
    else some (physOf e.2 v)

/-- `*(uint32_t *)v`, for aligned `v`. -/
def kload32 (m : Machine) (v : Nat) : Option Nat := (m.kread v).map (load32 m.mem)

/-- `*(uint32_t *)v = w`, for aligned `v`. -/
def kstore32 (m : Machine) (v w : Nat) : Option Machine :=
  (m.kwrite v).map fun p => { m with mem := store32 m.mem p w }

def kload8 (m : Machine) (v : Nat) : Option UInt8 := (m.kread v).map m.mem

def kstore8 (m : Machine) (v : Nat) (b : UInt8) : Option Machine :=
  (m.kwrite v).map fun p => { m with mem := Function.update m.mem p b }

/-- `pmm_alloc()`. -/
def Machine.alloc (m : Machine) : Nat × Machine :=
  ((pmmAlloc m.pmm).1, { m with pmm := (pmmAlloc m.pmm).2 })

/-- `pmm_free(addr)`. -/
def Machine.free (m : Machine) (addr : Nat) : Machine := { m with pmm := pmmFree m.pmm addr }

/-- `for (i = 0; i < 1024; i++) pt[i] = 0`. -/
def clearTable (m : Machine) (pt : Nat) : Option Machine :=
  forRangeM (fun i m => kstore32 m (pt + 4 * i) 0) 0 1024 m

/-! ## the kernel's page directory -/

/-- `page_dir[i]`. -/
def Machine.pageDirEntry (m : Machine) (i : Nat) : Nat := load32 m.mem (m.pageDir + 4 * i)

/-- `page_dir[i] = w`. -/
def Machine.setPageDirEntry (m : Machine) (i w : Nat) : Machine :=
  { m with mem := store32 m.mem (m.pageDir + 4 * i) w }

/-- Page tables of each of the two maps `paging_init` builds. -/
def identityTables : Nat := 32

/-- First entry of the map at 3 GB. -/
def kernelHighIndex : Nat := 768

/-- The store of `paging_init`, under the boot page directory: only the first
4 MB are mapped. -/
def bootStore32 (m : Machine) (v w : Nat) : Option Machine :=
  if v < 2 ^ 22 then some { m with mem := store32 m.mem v w } else none

/-- One page table of `paging_init`: `base` is 0 for the identity map and 768
for the map at 3 GB, whose frames are the same.  The flag says that memory ran
out and `paging_init` has returned. -/
def pagingInitTable (base i : Nat) (st : Bool × Machine) : Option (Bool × Machine) :=
  if st.1 then some st
  else
    let ptPhys := st.2.alloc.1
    if ptPhys = 0 then some (true, st.2.alloc.2)
    else
      (forRangeM (fun j m => bootStore32 m (ptPhys + 4 * j)
        ((i <<< 22 ||| j <<< 12) ||| pagePresent ||| pageWrite)) 0 1024 st.2.alloc.2).map fun m =>
          (false, m.setPageDirEntry (base + i) (ptPhys ||| pagePresent ||| pageWrite))

/-- `paging_init`; the flag says that it returned early, with CR3 unchanged. -/
def pagingInit (m : Machine) : Option (Bool × Machine) :=
  let m := forRange (fun i m => m.setPageDirEntry i 0) 0 1024 m
  (forRangeM (pagingInitTable 0) 0 identityTables (false, m)).bind fun st =>
    (forRangeM (pagingInitTable kernelHighIndex) 0 identityTables st).map fun st =>
      if st.1 then st else (false, { st.2 with cr3 := st.2.pageDir })

/-- `paging_copy_kernel_mappings`. -/
def pagingCopyKernelMappings (m : Machine) (dst : Nat) : Option Machine :=
  (forRangeM (fun i m => kstore32 m (dst + 4 * i) (m.pageDirEntry i)) 0 32 m).bind fun m =>
    forRangeM (fun i m => kstore32 m (dst + 4 * i) (m.pageDirEntry i)) 768 32 m

/-- `paging_map`. -/
def pagingMap (m : Machine) (virt phys flags : Nat) : Option Machine :=
  let pdI := virt / 2 ^ 22
  let ptI := virt / 2 ^ 12 % 1024
  let pte := frameAddr phys ||| (flags ||| pagePresent)
  if hasFlag (m.pageDirEntry pdI) pagePresent then
    kstore32 m (frameAddr (m.pageDirEntry pdI) + 4 * ptI) pte
  else
    let pt := m.alloc.1
    if pt = 0 then some m.alloc.2
    else (clearTable m.alloc.2 pt).bind fun m =>
      kstore32 (m.setPageDirEntry pdI (pt ||| pagePresent ||| pageWrite)) (pt + 4 * ptI) pte

end AliOS
