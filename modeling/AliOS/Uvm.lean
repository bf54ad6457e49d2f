import AliOS.Paging

/-!
# AliOS.Uvm

User address spaces (`kernel/uvm.c`): making one, mapping a page into it,
cloning it with copy-on-write sharing, and tearing it down.  A page directory
is named by its physical address, which the kernel also uses as a pointer to
it; 0 is NULL.  A result `none` means that the kernel dereferenced an address
that is not mapped and died in the page-fault handler.
-/

namespace AliOS

open Lib

/-- The addresses of user space: behind PDE 32 to 767. -/
def UserAddr (a : Nat) : Prop := 0x08000000 ≤ a ∧ a < 0xC0000000

instance (a : Nat) : Decidable (UserAddr a) := inferInstanceAs (Decidable (_ ∧ _))

def uvmCreate (m : Machine) : Option (Nat × Machine) :=
  let phys := m.alloc.1
  if phys = 0 then some (0, m.alloc.2)
  else (clearTable m.alloc.2 phys).bind fun m =>
    (pagingCopyKernelMappings m phys).map fun m => (phys, m)

/-- The page table of `uvm_map` for entry `pdI`, made if need be; `none` inside
is out of memory. -/
def uvmTable (m : Machine) (pd pdI : Nat) : Option (Option Nat × Machine) :=
  (kload32 m (pd + 4 * pdI)).bind fun pde =>
    if hasFlag pde pagePresent then some (some (frameAddr pde), m)
    else
      let ptPhys := m.alloc.1
      if ptPhys = 0 then some (none, m.alloc.2)
      else (clearTable m.alloc.2 ptPhys).bind fun m =>
        (kstore32 m (pd + 4 * pdI) (ptPhys ||| pagePresent ||| pageWrite ||| pageUser)).map fun m =>
          (some ptPhys, m)

def uvmMap (m : Machine) (pd virt phys flags : Nat) : Option (Int × Machine) :=
  (uvmTable m pd (virt / 2 ^ 22)).bind fun r =>
    match r.1 with
    | none => some (-1, r.2)
    | some pt =>
      (kstore32 r.2 (pt + 4 * (virt / 2 ^ 12 % 1024))
        (frameAddr phys ||| (flags ||| pagePresent))).map
        fun m => (0, m)

/-- Body of the inner loop of `uvm_free`. -/
def uvmFreeEntry (pt j : Nat) (m : Machine) : Option Machine :=
  (kload32 m (pt + 4 * j)).map fun pte =>
    if hasFlag pte pagePresent then m.free (frameAddr pte) else m

/-- Body of the outer loop of `uvm_free`. -/
def uvmFreeTable (pd i : Nat) (m : Machine) : Option Machine :=
  (kload32 m (pd + 4 * i)).bind fun pde =>
    if hasFlag pde pagePresent then
      (forRangeM (uvmFreeEntry (frameAddr pde)) 0 1024 m).map fun m => m.free (frameAddr pde)
    else some m

def uvmFree (m : Machine) (pd : Nat) : Option Machine :=
  (forRangeM (uvmFreeTable pd) 0 768 m).map fun m => m.free pd

/-- Share one entry of `uvm_clone`, once its table `srcPt` is known.  The flag
says that `uvm_map` failed and nothing more is to be done. -/
def uvmCloneEntry (dst i srcPt j : Nat) (st : Bool × Machine) : Option (Bool × Machine) :=
  if st.1 then some st
  else (kload32 st.2 (srcPt + 4 * j)).bind fun pte =>
    if hasFlag pte pagePresent then
      let phys := frameAddr pte
      let flags := pte &&& (pageWrite ||| pageUser ||| pageCow)
      let virt := i <<< 22 ||| j <<< 12
      -- downgrade the parent's entry; the child gets the same flags
      (if hasFlag flags pageWrite then
        (kstore32 st.2 (srcPt + 4 * j) (phys ||| pagePresent ||| pageUser ||| pageCow)).map fun m =>
          (pageUser ||| pageCow, m)
      else some (flags, st.2)).bind fun p =>
        (uvmMap { p.2 with pmm := pmmAddref p.2.pmm phys } dst virt phys p.1).map fun r =>
          (decide (r.1 < 0), r.2)
    else some st

/-- Body of the outer loop of `uvm_clone`. -/
def uvmCloneTable (src dst i : Nat) (st : Bool × Machine) : Option (Bool × Machine) :=
  if st.1 then some st
  else (kload32 st.2 (src + 4 * i)).bind fun pde =>
    if hasFlag pde pagePresent then
      forRangeM (uvmCloneEntry dst i (frameAddr pde)) 0 1024 st
    else some st

def uvmClone (m : Machine) (src : Nat) : Option (Nat × Machine) :=
  (uvmCreate m).bind fun r =>
    let dst := r.1
    if dst = 0 then some (0, r.2)
    else (forRangeM (uvmCloneTable src dst) 32 736 (false, r.2)).bind fun st =>
      if st.1 then (uvmFree st.2 dst).map fun m => (0, m) else some (dst, st.2)

end AliOS
