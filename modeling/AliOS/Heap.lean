import AliOS.Lib.ByteMem
import AliOS.Lib.Ring
import AliOS.Paging.Identity

/-!
# AliOS.Heap

The kernel heap (`kernel/heap.c`): a list of blocks, each with a header of three words
in front of its payload, linked through memory from `heap_head`.  `kmalloc` takes the
first free block that is large enough, cut in two if enough is left over, and asks the
PMM for further pages until there is one; `kfree` marks a block free and joins free
neighbours.

Addresses are numbers, 0 for NULL; sums wrap at 32 bits.  Every loop follows the links
in memory; `fuel` bounds the number of its iterations, and `none` is a loop that has not
ended by then.

The kernel takes the physical address of a page for a virtual one.  Below 128 MB that is the
same in every page directory.  The PMM has pages up to 256 MB: those from 128 MB on are not
mapped, and the access is a page fault that halts the kernel, also `none`; or the process whose
directory is loaded has a page of its own there, which the access goes to.
-/

namespace AliOS

open Lib

def hdrSize : Nat := 12

/-- What has to be left over for a block to be cut. -/
def minSplit : Nat := hdrSize + 8

/-- Memory as it is mapped now, `heap_head` and the PMM.  `mapped` says which addresses from
128 MB on belong to a page of the running process.  `pages` records the pages that `pmm_alloc`
has given to the heap; no function reads it. -/
structure Heap where
  mem : Bytes
  mapped : Nat → Bool
  head : Nat
  pmm : Pmm
  pages : List Nat

namespace Heap

/-! ## block headers -/

/-- `b->size`. -/
def size (h : Heap) (b : Nat) : Nat := load32 h.mem b

/-- `b->free`, as a condition. -/
def free (h : Heap) (b : Nat) : Bool := load32 h.mem (b + 4) != 0

/-- `b->next`. -/
def next (h : Heap) (b : Nat) : Nat := load32 h.mem (b + 8)

def setSize (h : Heap) (b n : Nat) : Heap := { h with mem := store32 h.mem b n }

def setFree (h : Heap) (b : Nat) (f : Bool) : Heap :=
  { h with mem := store32 h.mem (b + 4) f.toNat }

def setNext (h : Heap) (b n : Nat) : Heap := { h with mem := store32 h.mem (b + 8) n }

def byteMapped (h : Heap) (a : Nat) : Bool := decide (a < identityEnd) || h.mapped a

/-- The header at `b` can be accessed: a page boundary may be in the middle of it. -/
def hdrMapped (h : Heap) (b : Nat) : Bool := h.byteMapped b && h.byteMapped (b + 11)

/-- The first block with `p` on the way along the links from `heap_head`, on which the headers
are read. -/
def search (h : Heap) (p : Nat → Bool) (fuel : Nat) : Option (Option Nat) :=
  (ringFind h.next 0 (fun b => !h.hdrMapped b || p b) fuel 0 h.head).bind fun
    | some (_, b) => if h.hdrMapped b then some (some b) else none
    | none => some none

/-- The end of a block, as it is computed from its header. -/
def stop (h : Heap) (b : Nat) : Nat := (b + hdrSize + h.size b) % 2 ^ 32

/-! ## heap_grow -/

/-- `blk->size = PAGE_SIZE - HDR_SIZE; blk->free = 1; blk->next = NULL;`. -/
def newBlock (h : Heap) (b : Nat) : Heap :=
  ((h.setSize b (pageSize - hdrSize)).setFree b true).setNext b 0

/-- `heap_grow` with a page and the tail `cur` of the list. -/
def growAt (h : Heap) (page cur : Nat) : Option Heap :=
  if h.free cur ∧ h.stop cur = page then
    some (h.setSize cur ((h.size cur + pageSize) % 2 ^ 32))
  else if h.hdrMapped page then some ((h.newBlock page).setNext cur page)
  else none

def heapGrow (fuel : Nat) (h : Heap) : Option (Bool × Heap) :=
  let (page, pmm) := pmmAlloc h.pmm
  if page = 0 then some (false, { h with pmm := pmm })
  else
    let h := { h with pmm := pmm, pages := page :: h.pages }
    if h.head = 0 then
      if h.hdrMapped page then some (true, { h.newBlock page with head := page }) else none
    else
      (h.search (fun b => h.next b == 0) fuel).bind fun
        | some cur => (h.growAt page cur).map (true, ·)
        | none => none

/-! ## heap_init and kmalloc -/

def heapInit (fuel : Nat) (h : Heap) : Option Heap := (h.heapGrow fuel).map Prod.snd

/-- A free block that can hold `size` bytes. -/
def fits (h : Heap) (size b : Nat) : Bool := h.free b && decide (size ≤ h.size b)

/-- The part of `cur` behind `size` bytes becomes a block of its own. -/
def cut (h : Heap) (cur size : Nat) : Heap :=
  let split := (cur + hdrSize + size) % 2 ^ 32
  let h := h.setSize split ((h.size cur + 2 ^ 32 - size - hdrSize) % 2 ^ 32)
  let h := h.setFree split true
  let h := h.setNext split (h.next cur)
  let h := h.setNext cur split
  h.setSize cur size

/-- The block `cur` is taken for `size` bytes. -/
def take (h : Heap) (cur size : Nat) : Option Heap :=
  if (size + minSplit) % 2 ^ 32 ≤ h.size cur then
    if h.hdrMapped ((cur + hdrSize + size) % 2 ^ 32) then
      some ((h.cut cur size).setFree cur false)
    else none
  else some (h.setFree cur false)

/-- An iteration of the loop of `kmalloc`, with the pointer it returns; `retry` is the rest
of the loop. -/
def kmallocRound (fuel size : Nat) (retry : Heap → Option (Nat × Heap)) (h : Heap) :
    Option (Nat × Heap) :=
  (h.search (h.fits size) fuel).bind fun
    | some cur => (h.take cur size).map ((cur + hdrSize) % 2 ^ 32, ·)
    | none =>
      (h.heapGrow fuel).bind fun
        | (true, h) => retry h
        | (false, h) => some (0, h)

def kmallocLoop (fuel size : Nat) : Nat → Heap → Option (Nat × Heap)
  | 0, _ => none
  | n + 1, h => kmallocRound fuel size (kmallocLoop fuel size n) h

/-- `(size + 3u) & ~3u`. -/
def roundUp (size : UInt32) : Nat := (size.toNat + 3) % 2 ^ 32 / 4 * 4

def kmalloc (fuel : Nat) (size : UInt32) (h : Heap) : Option (Nat × Heap) :=
  if size = 0 then some (0, h) else kmallocLoop fuel (roundUp size) fuel h

/-! ## kfree -/

/-- `cur->size += HDR_SIZE + cur->next->size; cur->next = cur->next->next;`. -/
def absorb (h : Heap) (cur : Nat) : Heap :=
  let h := h.setSize cur ((h.size cur + hdrSize + h.size (h.next cur)) % 2 ^ 32)
  h.setNext cur (h.next (h.next cur))

/-- The inner loop of `kfree` from `cur` on, and what `merged` is then. -/
def mergePass : Nat → Bool → Nat → Heap → Option (Bool × Heap)
  | 0, _, _, _ => none
  | fuel + 1, merged, cur, h =>
    if cur = 0 then some (merged, h)
    else if !h.hdrMapped cur then none
    else if h.next cur = 0 then some (merged, h)
    else if h.free cur && !h.hdrMapped (h.next cur) then none
    else if h.free cur && h.free (h.next cur) && h.stop cur == h.next cur then
      mergePass fuel true cur (h.absorb cur)
    else mergePass fuel merged (h.next cur) h

/-- A pass of `kfree` over the list; `again` is the rest of the loop. -/
def mergeRound (fuel : Nat) (again : Heap → Option Heap) (h : Heap) : Option Heap :=
  (mergePass fuel false h.head h).bind fun
    | (true, h) => again h
    | (false, h) => some h

/-- `do { … } while (merged);`. -/
def mergeLoop (fuel : Nat) : Nat → Heap → Option Heap
  | 0, _ => none
  | n + 1, h => mergeRound fuel (mergeLoop fuel n) h

def kfree (fuel ptr : Nat) (h : Heap) : Option Heap :=
  if ptr = 0 then some h
  else
    let blk := (ptr + 2 ^ 32 - hdrSize) % 2 ^ 32
    if h.hdrMapped blk then mergeLoop fuel fuel (h.setFree blk true) else none

end Heap

/-! ## runs -/

/-- The heap and the pointers that `kmalloc` has returned and `kfree` has not got back. -/
structure HeapUse extends Heap where
  live : List Nat

/-- A call, a byte stored by whoever uses an allocation or other memory, something the
rest of the kernel does with the PMM, or another address space: what stands from 128 MB on
belongs to the process that runs. -/
inductive HeapOp where
  | init
  | malloc (size : UInt32)
  | free (ptr : Nat)
  | store (a : Nat) (v : UInt8)
  | pmm (p : Pmm)
  | space (mem : Bytes) (mapped : Nat → Bool)

namespace HeapUse

/-- `a` is a byte of a live allocation. -/
def Owned (u : HeapUse) (a : Nat) : Prop :=
  ∃ ptr ∈ u.live, ptr ≤ a ∧ a < ptr + u.size (ptr - hdrSize)

/-- `a` is a byte of a page of the heap. -/
def InPages (u : HeapUse) (a : Nat) : Prop := ∃ p ∈ u.pages, p ≤ a ∧ a < p + pageSize

/-- Only live pointers are freed; stores stay inside live allocations, or outside the
heap; nobody else frees the pages of the heap. -/
def Allowed (u : HeapUse) : HeapOp → Prop
  | .init | .malloc _ | .space _ _ => True
  | .free ptr => ptr = 0 ∨ ptr ∈ u.live
  | .store a _ => u.Owned a ∨ ¬u.InPages a
  | .pmm p => ∀ a ∈ u.pages, pageIsFree p (a / pageSize) = false

def step (fuel : Nat) (u : HeapUse) : HeapOp → Option HeapUse
  | .init => (u.heapInit fuel).map fun h => { u with toHeap := h }
  | .malloc size =>
    (u.kmalloc fuel size).map fun r =>
      { toHeap := r.2, live := if r.1 = 0 then u.live else r.1 :: u.live }
  | .free ptr => (u.kfree fuel ptr).map fun h => { toHeap := h, live := u.live.filter (· != ptr) }
  | .store a v => some { u with mem := Function.update u.mem a v }
  | .pmm p => some { u with pmm := p }
  | .space mem mapped =>
    some { u with mem := fun a => if a < identityEnd then u.mem a else mem a, mapped := mapped }

/-- The states reached from `u₀` through states with `P`. -/
inductive Run (P : HeapUse → Prop) (u₀ : HeapUse) : HeapUse → Prop where
  | nil : Run P u₀ u₀
  | step {u u' : HeapUse} (fuel : Nat) (op : HeapOp) :
      Run P u₀ u → u.Allowed op → u.step fuel op = some u' → P u' → Run P u₀ u'

/-- Before the first call: `heap_head` is NULL and the heap has no page. -/
structure Fresh (u : HeapUse) : Prop where
  head : u.head = 0
  pages : u.pages = []
  live : u.live = []

end HeapUse

end AliOS
