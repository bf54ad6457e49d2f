import AliOS.Pipe
import AliOS.Sched
import AliOS.Uvm

/-!
# AliOS.Syscall

The system calls that store through a pointer of their caller (`kernel/syscall.c`):
`sys_read` into its buffer, `sys_wait` into `exit_ptr` and `sys_pipe` into
`user_fds`.  The kernel does not check these pointers and does not copy on write:
it stores in ring 0, under the page directory of the caller.  A page fault on the
way stops the kernel, `none`.

The kernel's own variables (pipes, directory, tasks) are not part of the memory
these stores go to; the results are about pointers into user space.  Only for
`sys_pipe` the stores into `pipes[]` itself are followed.
-/

namespace AliOS

open Lib

/-- The state the calls work on: the machine, the file system, the pipes, the
running task and the rest of the run queue; and the physical address the linker
has given to `pipes[]`. -/
structure Kernel where
  machine : Machine
  fs : Fs
  pipes : Pipes
  current : Task
  queue : List Task
  pipesAt : Nat := 0x20000

/-- How a call leaves the processor: with its return value, or waiting, after
`n` bytes of a read. -/
inductive SysResult where
  | returned (v : Int)
  | waiting (n : Nat)

/-- Bytes stored one after the other from `p` on. -/
def storeBytes (m : Machine) (p : Nat) : List UInt8 → Option Machine
  | [] => some m
  | b :: bs => (kstore8 m (p % 2 ^ 32) b).bind fun m => storeBytes m (p + 1) bs

/-- The bytes of an `int`. -/
def intBytes (v : Int) : List UInt8 := slice (wordBytes (v % 2 ^ 32).toNat) 0 4

/-- `t->fd_table[fd] = f` for the running task. -/
def Kernel.setFd (k : Kernel) (fd : Nat) (f : TaskFd) : Kernel :=
  { k with current := { k.current with fdTable := Function.update k.current.fdTable fd f } }

/-! ## sys_read -/

/-- `pipe_read` as a part of `sys_read`, with `n` bytes delivered. -/
def Kernel.pipeRead (k : Kernel) (pi buf len n : Nat) : Option (SysResult × Kernel) :=
  (AliOS.pipeRead buf len n (k.pipes pi) k.machine).map fun r =>
    (if r.1.2 then .returned (asInt r.1.1) else .waiting r.1.1,
      { k with pipes := Function.update k.pipes pi r.2.1, machine := r.2.2 })

/-- `alfs_pread` as a part of `sys_read`. -/
def Kernel.fileRead (k : Kernel) (fd buf len : Nat) : Option (SysResult × Kernel) :=
  let f := k.current.fdTable fd
  let res := alfsPread k.fs f.alfsIdx len f.offset
  (storeBytes k.machine buf res.1.2).map fun m =>
    let k := { k with machine := m, fs := res.2 }
    (.returned res.1.1,
      if res.1.1 > 0 then k.setFd fd { f with offset := (f.offset + res.1.1.toNat) % 2 ^ 32 }
        else k)

def sysRead (k : Kernel) (fd : Int) (buf len : Nat) : Option (SysResult × Kernel) :=
  if fd < 0 ∨ fd ≥ taskFdMax then some (.returned (-1), k)
  else
    let f := k.current.fdTable fd.toNat
    if f.used && f.type == .pipe then k.pipeRead f.pipeIdx buf len 0
    else if f.used && f.type == .file then k.fileRead fd.toNat buf len
    else some (.returned (-1), k)

/-! ## sys_wait -/

def sysWait (k : Kernel) (exitPtr : Nat) : Option (SysResult × Kernel) :=
  let res := schedWait k.current k.queue
  let k := { k with current := res.2.1, queue := res.2.2 }
  match res.1 with
  | .reaped pid code =>
    if exitPtr ≠ 0 ∧ pid ≥ 0 then
      (storeBytes k.machine exitPtr (intBytes code)).map fun m =>
        (.returned pid, { k with machine := m })
    else some (.returned pid, k)
  | .noChild => some (.returned (-1), k)
  | .blocked => some (.waiting 0, k)

/-! ## sys_pipe -/

/-- The loop of `sys_pipe` for two unused descriptors. -/
def freeFds (fdTable : Nat → TaskFd) : Option Nat × Option Nat :=
  forRange (fun i fds => if (fdTable i).used then fds
    else match fds with
      | (none, w) => (some i, w)
      | (some r, none) => (some r, some i)
      | fds => fds) 3 (taskFdMax - 3) (none, none)

/-- The descriptors `rfd` and `wfd` become the two ends of pipe `pi`. -/
def Kernel.openPipe (k : Kernel) (pi rfd wfd : Nat) : Kernel :=
  let k := k.setFd rfd
    { k.current.fdTable rfd with used := true, type := .pipe, pipeIdx := pi, pipeWrite := false }
  k.setFd wfd
    { k.current.fdTable wfd with used := true, type := .pipe, pipeIdx := pi, pipeWrite := true }

/-- `sizeof(pipe_t)`. -/
def pipeSize : Nat := pipeBuf + 16

/-- A byte is stored at offset `d` of a `pipe_t`. -/
def Pipe.poke (p : Pipe) (d : Nat) (b : UInt8) : Pipe :=
  let field (w : Nat) : Nat := load32 (Function.update (wordBytes w) (d % 4) b) 0
  if d < pipeBuf then { p with data := Function.update p.data d b }
  else if d < pipeBuf + 4 then { p with head := .ofNat (field p.head.toNat) }
  else if d < pipeBuf + 8 then { p with tail := .ofNat (field p.tail.toNat) }
  else if d < pipeBuf + 12 then { p with nreaders := field p.nreaders }
  else { p with nwriters := field p.nwriters }

/-- What a store to the address `v` changes in `pipes[]`.  Every page directory maps the
kernel image from 0 and from `KERNEL_OFFSET` on. -/
def Pipes.poke (base : Nat) (ps : Pipes) (v : Nat) (b : UInt8) : Pipes :=
  let d := v % kernelOffset - base
  if UserAddr v ∨ v % kernelOffset < base ∨ d ≥ pipeMax * pipeSize then ps
  else Function.update ps (d / pipeSize) ((ps (d / pipeSize)).poke (d % pipeSize) b)

/-- `pipes[]` after bytes have been stored from `v` on. -/
def Pipes.store (base : Nat) (ps : Pipes) (v : Nat) : List UInt8 → Pipes
  | [] => ps
  | b :: bs => Pipes.store base (ps.poke base (v % 2 ^ 32) b) (v + 1) bs

def sysPipe (k : Kernel) (userFds : Nat) : Option (SysResult × Kernel) :=
  match pipeAlloc k.pipes with
  | (none, _) => some (.returned (-1), k)
  | (some pi, pipes) =>
    match freeFds k.current.fdTable with
    | (some rfd, some wfd) =>
      let k := { k with pipes := pipes }.openPipe pi rfd wfd
      (storeBytes k.machine userFds (intBytes rfd)).bind fun m =>
        (storeBytes m (userFds + 4) (intBytes wfd)).map fun m =>
          (.returned 0, { k with
            machine := m
            pipes := k.pipes.store k.pipesAt userFds (intBytes rfd ++ intBytes wfd) })
    | _ => some (.returned (-1), { k with pipes := pipeCloseWrite (pipeCloseRead pipes pi) pi })

/-! ## the calls -/

/-- The calls that store through a user pointer.  `readOn` is a `sys_read` from a
pipe that goes on after it has waited. -/
inductive UserCall where
  | read (fd : Int) (buf len : Nat)
  | readOn (pi buf len n : Nat)
  | wait (exitPtr : Nat)
  | pipe (userFds : Nat)

def UserCall.run (k : Kernel) : UserCall → Option (SysResult × Kernel)
  | .read fd buf len => sysRead k fd buf len
  | .readOn pi buf len n => k.pipeRead pi buf len n
  | .wait exitPtr => sysWait k exitPtr
  | .pipe userFds => sysPipe k userFds

end AliOS
