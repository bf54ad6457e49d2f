import AliOS.Elf
import AliOS.Fault
import AliOS.Sched.Queue

/-!
# AliOS.Process

User tasks with their memory: the tasks of the scheduler, the machine they run on, and the
fields of `task_t` that connect the two.  Here are the routines that make a user task
(`sys_fork` in `kernel/syscall.c`, the loading part of `cmd_run` in `kernel/shell.c`), that
let it grow (`sys_brk`), and that bring it to ring 3 for the first time (`task_switch`,
`user_task_trampoline`, `user_enter_eax`).

`kmalloc` answers with an address for the new task, or with none.  A result `none` of a
routine means that the kernel died in the page-fault handler.
-/

namespace AliOS

open Lib Function

/-! ## state -/

/-- The registers a C function leaves as they were. -/
structure CalleeSaved where
  ebx : UInt32
  edi : UInt32
  esi : UInt32
  ebp : UInt32
deriving DecidableEq

/-- The fields of `task_t` for a user task. -/
structure UserSide where
  pageDir : Nat
  userEip : UInt32
  userEsp : UInt32
  userBrk : UInt32
  userEax : UInt32
  /-- the words at `esp` before the task has run; above them is the address of
  `user_task_trampoline` -/
  switchFrame : CalleeSaved

/-- The scheduler, the machine with the file system, and the user side of each task. -/
structure Processes extends Sched, Loader where
  user : Nat → UserSide

/-- The user side of `current_task`. -/
def Processes.curUser (p : Processes) : UserSide := p.user p.current

/-- The scheduler has run: if `current_task` is another one, `task_switch` has loaded its page
directory. -/
def Processes.switched (p : Processes) (s : Sched) : Processes :=
  let pd := (p.user s.current).pageDir
  { p with
    toSched := s
    machine :=
      { p.machine with cr3 := if s.current = p.current ∨ pd = 0 then p.machine.cr3 else pd } }

/-! ## new tasks -/

/-- What `task_create_user` sets. -/
def UserSide.create (eip userEsp : UInt32) (pd : Nat) : UserSide where
  pageDir := pd
  userEip := eip
  userEsp := userEsp
  userBrk := 0x10000000
  userEax := 0
  switchFrame := ⟨0, 0, 0, 0⟩

/-- `task_create_user`, when `kmalloc` returns the address `a`. -/
def Processes.taskCreateUser (p : Processes) (a : Nat) (eip userEsp : UInt32) (pd : Nat) :
    Processes :=
  { p with
    toSched := p.toSched.taskCreateUser a
    user := update p.user a (.create eip userEsp pd) }

/-- `struct regs`, as far as it is used, with the user ESP that lies above it. -/
structure Regs where
  edi : UInt32
  esi : UInt32
  ebp : UInt32
  ebx : UInt32
  edx : UInt32
  ecx : UInt32
  eip : UInt32
  userEsp : UInt32

def Processes.sysFork (p : Processes) (r : Regs) (child : Option Nat) : Option (Int × Processes) :=
  (uvmClone p.machine p.curUser.pageDir).bind fun res =>
    let p := { p with machine := res.2 }
    if res.1 = 0 then some (-1, p)
    else
      match child with
      | none => (uvmFree p.machine res.1).map fun m => (-1, { p with machine := m })
      | some a =>
        let u :=
          { UserSide.create r.eip r.userEsp res.1 with userEax := 0, userBrk := p.curUser.userBrk }
        some ((p.toSched.sysFork (some a)).1,
          { p with toSched := (p.toSched.sysFork (some a)).2, user := update p.user a u })

/-- The stack page of a new program; 0 is out of memory. -/
def mapStack (m : Machine) (pd : Nat) : Option (Nat × Machine) :=
  let spPhys := m.alloc.1
  if spPhys = 0 then some (0, m.alloc.2)
  else (zeroPage m.alloc.2 spPhys).bind fun m =>
    (uvmMap m pd userStackVbase spPhys (pageWrite ||| pageUser)).map fun r => (spPhys, r.2)

/-- Stores into the page at `page`. -/
def storeAt (m : Machine) (page : Nat) : List (Int × UInt8) → Option Machine
  | [] => some m
  | (i, b) :: rest => (kstore8 m ((page + i) % 2 ^ 32).toNat b).bind fun m => storeAt m page rest

/-- A program is given up. -/
def Processes.discard (p : Processes) (upd : Nat) : Option (Option Nat × Processes) :=
  (uvmFree p.machine upd).map fun m => (none, { p with machine := m })

/-- `cmd_run` from `uvm_create` to `task_create_user`, for the program `argv 0`.  `junk` is what
the stack held where `elf_push_args` has its array. -/
def Processes.loadProgram (p : Processes) (argc : Nat) (argv : Nat → CStr) (junk : Nat → Nat)
    (mem : Option Nat) : Option (Option Nat × Processes) :=
  (uvmCreate p.machine).bind fun r =>
    let upd := r.1
    let p := { p with machine := r.2 }
    if upd = 0 then some (none, p)
    else (elfLoad p.toLoader upd (argv 0)).bind fun r =>
      let p := { p with toLoader := r.2 }
      match r.1.entry with
      | none => p.discard upd
      | some entry =>
        (mapStack p.machine upd).bind fun r =>
          let p := { p with machine := r.2 }
          if r.1 = 0 then p.discard upd
          else
            let args := elfPushArgs argc argv junk
            (storeAt p.machine r.1 args.2).bind fun m =>
              let p := { p with machine := m }
              match mem with
              | none => p.discard upd
              | some a => some (some a, p.taskCreateUser a (.ofNat entry) (.ofNat args.1) upd)

/-! ## sys_brk -/

/-- Body of the loop of `sys_brk`; the flag says that it has returned -1. -/
def brkPage (pd va : Nat) (st : Bool × Machine) : Option (Bool × Machine) :=
  if st.1 then some st
  else
    let phys := st.2.alloc.1
    if phys = 0 then some (true, st.2.alloc.2)
    else (zeroPage st.2.alloc.2 phys).bind fun m =>
      (uvmMap m pd va phys (pageUser ||| pageWrite)).map fun r => (false, r.2)

def Processes.sysBrk (p : Processes) (newBrk : UInt32) : Option (Int × Processes) :=
  let brk := p.curUser.userBrk
  if newBrk = 0 then some (asInt brk.toNat, p)
  else if newBrk ≤ brk then some (asInt brk.toNat, p)
  else if newBrk ≥ 0xBFFF0000 then some (-1, p)
  else
    let oldPage := (brk.toNat + 0xFFF) % 2 ^ 32 / 4096 * 4096
    let newPage := (newBrk.toNat + 0xFFF) % 2 ^ 32 / 4096 * 4096
    (forRangeM (fun n => brkPage p.curUser.pageDir (oldPage + 4096 * n)) 0
      ((newPage - oldPage) / 4096)
      (false, p.machine)).map fun st =>
        if st.1 then (-1, { p with machine := st.2 })
        else (asInt newBrk.toNat,
          { p with
            machine := st.2
            user := update p.user p.current { p.curUser with userBrk := newBrk } })

/-! ## the way to ring 3 -/

/-- The registers of a program. -/
structure UserRegs where
  eax : UInt32
  ebx : UInt32
  ecx : UInt32
  edx : UInt32
  esi : UInt32
  edi : UInt32
  ebp : UInt32
  eip : UInt32
  esp : UInt32
deriving DecidableEq

/-- `USER_DS`. -/
def userDs : UInt32 := 0x23

/-- `user_enter_eax`: `iret` pops EIP and ESP, which have been pushed from EDX and ECX. -/
def userEnterEax (regs : CalleeSaved) (eip esp eaxVal : UInt32) : UserRegs :=
  let edx := eip
  let ecx := esp
  let eax := eaxVal
  -- `mov bx, USER_DS`
  let ebx := regs.ebx &&& 0xFFFF0000 ||| userDs
  { eax, ebx, ecx, edx, esi := regs.esi, edi := regs.edi, ebp := regs.ebp, eip := edx, esp := ecx }

/-- `user_task_trampoline`, with the registers as `task_switch` has popped them.  The function
never returns; what its compiled form has in the callee-saved registers at the call is up
to the compiler, `prologue`. -/
def UserSide.userTaskTrampoline (prologue : CalleeSaved → CalleeSaved) (u : UserSide) : UserRegs :=
  userEnterEax (prologue u.switchFrame) u.userEip u.userEsp u.userEax

/-! ## steps and runs -/

/-- What can happen next: the scheduler does something, the running program forks, grows its
heap or writes to its memory, the shell loads a program; `store` is whatever else the
programs and their calls do to the memory. -/
inductive ProcOp where
  | sched (op : Op)
  | fork (r : Regs) (child : Option Nat)
  | run (argc : Nat) (argv : Nat → CStr) (junk : Nat → Nat) (mem : Option Nat)
  | brk (newBrk : UInt32)
  | write (v : Nat) (b : UInt8)
  | store (mem : Bytes)

/-- Tasks are made by `fork` and `run`; the shell is the boot task, and never in ring 3. -/
def ProcOp.allowed (p : Processes) : ProcOp → Bool
  | .sched (.create _) | .sched (.fork _) => false
  | .sched op => op.allowed p.toSched
  | .fork _ child => (Op.fork child).allowed p.toSched && p.current != bootTask
  | .run _ _ _ mem =>
    p.cur.resume == .outside && p.current == bootTask && mem.all fun a => p.block a == .free
  | .brk _ | .write _ _ => p.cur.resume == .outside && p.current != bootTask
  | .store _ => true

def Processes.step (fuel : Nat) (p : Processes) : ProcOp → Option Processes
  | .sched op => (p.toSched.step fuel op).map p.switched
  | .fork r child => (p.sysFork r child).map Prod.snd
  | .run argc argv junk mem => (p.loadProgram argc argv junk mem).map Prod.snd
  | .brk newBrk => (p.sysBrk newBrk).map Prod.snd
  | .write v b => (userWrite p.machine v b).map fun m => { p with machine := m }
  | .store mem => some { p with machine := { p.machine with mem := mem } }

/-- The states reached from `p₀` by steps that satisfy `ok`. -/
inductive ProcRun (ok : Processes → ProcOp → Prop) (p₀ : Processes) : Processes → Prop where
  | nil : ProcRun ok p₀ p₀
  | step {p p' : Processes} (fuel : Nat) (op : ProcOp) :
      ProcRun ok p₀ p → op.allowed p = true → ok p op → p.step fuel op = some p' → ProcRun ok p₀ p'

end AliOS
