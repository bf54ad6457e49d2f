import AliOS.Uvm

/-!
# AliOS.Fault

The page-fault handler (`kernel/fault.c`) and the user-mode accesses that lead
to it.  `none` is the fatal branch: the handler prints a diagnostic and halts.
A user-mode write is tried by the processor, and tried again if the handler
returned.
-/

namespace AliOS

open Lib

def pfPresent : Nat := 1
def pfWrite : Nat := 2
def pfUser : Nat := 4
def pfReserved : Nat := 8

def kernelVirtBase : Nat := 0xC0000000

/-- `for (k = 0; k < 4096; k++) dst[k] = src[k]`. -/
def copyPage (m : Machine) (dst src : Nat) : Option Machine :=
  forRangeM (fun k m => (kload8 m (src + k)).bind fun b => kstore8 m (dst + k) b) 0 4096 m

/-- The copy-on-write branch once the entry `pte` at `ptAddr` is known to carry
the flag. -/
def resolveCow (m : Machine) (ptAddr pte : Nat) : Option Machine :=
  let oldPhys := frameAddr pte
  -- the low 12 bits without the flag
  let baseFlags := pte &&& 0xDFF
  if pmmGetref m.pmm oldPhys = 1 then kstore32 m ptAddr (oldPhys ||| (baseFlags ||| pageWrite))
  else
    let newPhys := m.alloc.1
    if newPhys = 0 then none
    else (copyPage m.alloc.2 newPhys oldPhys).bind fun m =>
      kstore32 (m.free oldPhys) ptAddr (newPhys ||| (baseFlags ||| pageWrite))

/-- The copy-on-write section of `page_fault`. -/
def cowFault (m : Machine) (pd cr2 : Nat) : Option Machine :=
  (kload32 m (pd + 4 * (cr2 / 2 ^ 22))).bind fun pde =>
    if hasFlag pde pagePresent then
      let ptAddr := frameAddr pde + 4 * (cr2 / 2 ^ 12 % 1024)
      (kload32 m ptAddr).bind fun pte =>
        if hasFlag pte pagePresent && hasFlag pte pageCow then resolveCow m ptAddr pte else none
    else none

/-- `page_fault`; `task` is the current task's page directory, if there is a
current task. -/
def pageFault (m : Machine) (task : Option Nat) (err cr2 : Nat) : Option Machine :=
  let demand := !hasFlag err pfPresent && !hasFlag err pfUser && !hasFlag err pfReserved &&
    decide (cr2 ≥ kernelVirtBase)
  if demand && decide (m.alloc.1 ≠ 0) then
    pagingMap m.alloc.2 (frameAddr cr2) m.alloc.1 (pagePresent ||| pageWrite)
  else
    -- an allocation that failed goes on to the checks below
    let m := if demand then m.alloc.2 else m
    match task with
    | none => none
    | some pd =>
      if hasFlag err pfPresent && hasFlag err pfWrite && hasFlag err pfUser &&
          decide (cr2 < kernelVirtBase) then cowFault m pd cr2
      else none

/-! ## user mode -/

/-- What a user-mode read of `v` returns under the page directory `pd`. -/
def userRead (mem : Bytes) (pd v : Nat) : Option UInt8 :=
  (walk mem pd v).bind fun e =>
    if hasFlag e.1 pageUser && hasFlag e.2 pageUser then some (mem (physOf e.2 v)) else none

/-- A user-mode store of the processor; `none` is a page fault. -/
def userStore (m : Machine) (v : Nat) (b : UInt8) : Option Machine :=
  (walk m.mem m.cr3 v).bind fun e =>
    if hasFlag e.1 pageUser && hasFlag e.2 pageUser && hasFlag e.1 pageWrite &&
      hasFlag e.2 pageWrite
    then some { m with mem := Function.update m.mem (physOf e.2 v) b } else none

/-- The error code of a user-mode write to `v` that faults. -/
def writeError (m : Machine) (v : Nat) : Nat :=
  (if (walk m.mem m.cr3 v).isSome then pfPresent else 0) ||| pfWrite ||| pfUser

/-- A user-mode write by the task on CR3: the processor's store, after a fault
the handler's work and the store again.  `none` means that it is refused. -/
def userWrite (m : Machine) (v : Nat) (b : UInt8) : Option Machine :=
  match userStore m v b with
  | some m' => some m'
  | none => (pageFault m (some m.cr3) (writeError m v) v).bind fun m' => userStore m' v b

end AliOS
