import AliOS.Lib.Ring
import AliOS.Path
import AliOS.Pipe
import AliOS.Sched

/-!
# AliOS.Sched.Queue

The scheduler (`kernel/sched.c`, with `kernel/task.c` and `sys_kill`, `sys_fork` of
`kernel/syscall.c`) on the run queue as it lies in memory: task control blocks at
addresses, linked by `next` into a ring that `current_task` moves around on.  Every
loop over the ring follows the links; `fuel` bounds the number of nodes a loop visits,
and `none` is a loop that has not ended by then.

The routines run with interrupts disabled, so each is one step: `sched_wait` one
iteration of its loop, `sched_tick` the whole interrupt.  In between any task may be
interrupted.  `Resume` is what the stack of a task says about the code it goes on in:
outside the scheduler, in the loop of `sched_wait`, or in the idle loop at the end of
`sched_exit`.

Addresses are numbers, 0 for NULL.  What `kmalloc` has done with the memory of a task
is in `block`; the stacks, page directories and names of tasks are left out.
-/

namespace AliOS

open Lib Function

/-! ## state -/

/-- Where a task goes on when it has the processor. -/
inductive Resume where
  | outside
  | inWait
  | exited
deriving DecidableEq

/-- `task_t` with the fields the scheduler uses. -/
structure Pcb extends Task where
  next : Nat
  wakeupTick : Nat
  pendingSigs : UInt32
  cwd : CStr
  resume : Resume

/-- The life of the memory of a task: allocated by `task_create_user`, put into the
run queue by `sched_add`, released by `sched_wait`. -/
inductive Block where
  | free
  | created
  | queued
deriving DecidableEq

/-- `current_task`, `next_pid`, `foreground_task`, the timer, the pipes, and the memory
the tasks are in. -/
structure Sched where
  tasks : Nat → Pcb
  block : Nat → Block
  current : Nat
  nextPid : Nat
  ticks : Nat
  pipes : Pipes
  foreground : Option Nat

/-- `&boot_task`. -/
def bootTask : Nat := 1

/-- `1u << 9`. -/
def sigkill : UInt32 := (1 : UInt32) <<< (9 : UInt32)

namespace Sched

def next (s : Sched) (a : Nat) : Nat := (s.tasks a).next

/-- `*current_task`. -/
def cur (s : Sched) : Pcb := s.tasks s.current

/-- Stores into the task at `a`. -/
def modify (s : Sched) (a : Nat) (f : Pcb → Pcb) : Sched :=
  { s with tasks := update s.tasks a (f (s.tasks a)) }

/-- `t = current_task->next; while (t != current_task) { … t = t->next; }`, left at the
first task that satisfies `p`; with the task before it. -/
def search (fuel : Nat) (s : Sched) (p : Pcb → Bool) : Option (Option (Nat × Nat)) :=
  ringFind s.next s.current (fun a => p (s.tasks a)) fuel s.current (s.next s.current)

/-- `t = current_task; do { … t = t->next; } while (t != current_task);`. -/
def forEach (fuel : Nat) (body : Nat → Sched → Option Sched) (s : Sched) : Option Sched :=
  (body s.current s).bind fun s' => ringFold next s.current body fuel (s'.next s.current) s'

end Sched

/-! ## schedule -/

/-- The task `schedule` does not skip. -/
def Pcb.runnable (t : Pcb) : Bool := !(t.state == .zombie || t.state == .blocked)

/-- The end of `schedule`: the processor goes to `nxt`. -/
def Sched.switchTo (s : Sched) (nxt : Nat) : Sched :=
  let s := s.modify s.current fun t => if t.state = .running then { t with state := .ready } else t
  let s := s.modify nxt fun t => { t with state := .running }
  { s with current := nxt }

def Sched.schedule (fuel : Nat) (s : Sched) : Option Sched :=
  (s.search fuel Pcb.runnable).map fun
    | none => s
    | some (_, nxt) => s.switchTo nxt

/-! ## descriptors -/

/-- `pipe_close_write(f.pipe_idx)` or `pipe_close_read(f.pipe_idx)`. -/
def TaskFd.closeEnd (f : TaskFd) (ps : Pipes) : Pipes :=
  if f.pipeWrite then pipeCloseWrite ps f.pipeIdx else pipeCloseRead ps f.pipeIdx

/-- `pipe_open_write(f.pipe_idx)` or `pipe_open_read(f.pipe_idx)`. -/
def TaskFd.openEnd (f : TaskFd) (ps : Pipes) : Pipes :=
  if f.pipeWrite then pipeOpenWrite ps f.pipeIdx else pipeOpenRead ps f.pipeIdx

/-- The body of the loop in `release_pipe_fds`. -/
def releaseFd (i : Nat) (st : (Nat → TaskFd) × Pipes) : (Nat → TaskFd) × Pipes :=
  if (st.1 i).used && (st.1 i).type == .pipe then
    (update st.1 i { st.1 i with used := false }, (st.1 i).closeEnd st.2)
  else st

/-- `release_pipe_fds(t)`, for the task at `a`. -/
def Sched.releasePipeFds (s : Sched) (a : Nat) : Sched :=
  let st := forRange releaseFd 0 taskFdMax ((s.tasks a).fdTable, s.pipes)
  { s.modify a fun t => { t with fdTable := st.1 } with pipes := st.2 }

/-- The body of the loop in `sys_fork` that hands the descriptors down. -/
def inheritFd (fdTable : Nat → TaskFd) (i : Nat) (st : (Nat → TaskFd) × Pipes) :
    (Nat → TaskFd) × Pipes :=
  (update st.1 i (fdTable i),
    if (fdTable i).used && (fdTable i).type == .pipe then (fdTable i).openEnd st.2 else st.2)

/-- The task at `a` gets the descriptors of `fdTable`. -/
def Sched.inheritFds (s : Sched) (fdTable : Nat → TaskFd) (a : Nat) : Sched :=
  let st := forRange (inheritFd fdTable) 0 taskFdMax ((s.tasks a).fdTable, s.pipes)
  { s.modify a fun t => { t with fdTable := st.1 } with pipes := st.2 }

/-! ## sched_tick -/

/-- A sleeper whose time has come wakes up. -/
def Pcb.wakeSleeper (now : Nat) (t : Pcb) : Pcb :=
  if t.state = .blocked ∧ t.wakeupTick ≠ 0 ∧ now ≥ t.wakeupTick then
    { t with wakeupTick := 0, state := .ready }
  else t

/-- A pending SIGKILL is delivered. -/
def Sched.deliverKill (a : Nat) (s : Sched) : Sched :=
  if (s.tasks a).pendingSigs &&& sigkill ≠ 0 ∧ (s.tasks a).state ≠ .zombie then
    let s := s.modify a fun t => { t with pendingSigs := t.pendingSigs &&& ~~~sigkill }
    let s := s.releasePipeFds a
    s.modify a fun t => { t with exitCode := -9, state := .zombie }
  else s

/-- The first loop of `sched_tick` at the task `a`. -/
def Sched.tickVisit (now a : Nat) (s : Sched) : Sched :=
  (s.modify a (Pcb.wakeSleeper now)).deliverKill a

/-- A task that waits for a child goes on. -/
def Sched.wakeWaiting (s : Sched) (a : Nat) : Sched :=
  s.modify a fun t => { t with waiting := false, state := .ready }

/-- The second loop of `sched_tick` at the task `a`: the inner loop looks for a zombie
among its children. -/
def Sched.wakeParent (fuel a : Nat) (s : Sched) : Option Sched :=
  if (s.tasks a).state = .blocked ∧ (s.tasks a).waiting then
    let zombieChild := fun c : Pcb => (s.tasks a).zombieOf c.toTask
    (if zombieChild s.cur then some true else (s.search fuel zombieChild).map Option.isSome).map
      fun found => if found then s.wakeWaiting a else s
  else some s

/-- `ticks++` in the handler of the timer interrupt. -/
def Sched.countTick (s : Sched) : Sched := { s with ticks := (s.ticks + 1) % 2 ^ 32 }

/-- The two loops of `sched_tick`, after the handler has counted the tick. -/
def Sched.tickPasses (fuel : Nat) (s : Sched) : Option Sched :=
  let s := s.countTick
  (s.forEach fuel fun a s' => some (s'.tickVisit s.ticks a)).bind fun s =>
    s.forEach fuel (Sched.wakeParent fuel)

/-- The timer interrupt, with `sched_tick` as its callback. -/
def Sched.schedTick (fuel : Nat) (s : Sched) : Option Sched :=
  (s.tickPasses fuel).bind (Sched.schedule fuel)

/-! ## tasks come and go -/

/-- The descriptor table of a new task.  `alfs_idx` and `offset` are what the memory
held; no slot has the number `pipeMax`, which stands for -1. -/
def clearFds (fdTable : Nat → TaskFd) : Nat → TaskFd := fun i =>
  { fdTable i with used := false, type := .unset, pipeIdx := pipeMax, pipeWrite := false }

/-- `task_create_user`, when `kmalloc` returns the address `a`. -/
def Sched.taskCreateUser (s : Sched) (a : Nat) : Sched :=
  { s with
    tasks := update s.tasks a
      { pid := s.nextPid, state := .ready, parentPid := s.cur.pid, exitCode := 0, waiting := false,
        fdTable := clearFds (s.tasks a).fdTable, next := 0, wakeupTick := 0, pendingSigs := 0,
        cwd := rootPath, resume := .outside }
    nextPid := (s.nextPid + 1) % 2 ^ 32
    block := update s.block a .created }

def Sched.schedAdd (s : Sched) (a : Nat) : Sched :=
  let s := s.modify a fun t => { t with state := .ready, next := s.next s.current }
  let s := s.modify s.current fun t => { t with next := a }
  { s with block := update s.block a .queued }

/-- `sys_fork`; `child` is the address of the new task, `none` when the address space or
the task cannot be created. -/
def Sched.sysFork (s : Sched) (child : Option Nat) : Int × Sched :=
  match child with
  | none => (-1, s)
  | some a => (asInt s.nextPid, ((s.taskCreateUser a).inheritFds s.cur.fdTable a).schedAdd a)

/-! ## blocking, waiting and exiting -/

/-- `current_task` sleeps until the tick `wakeAt`. -/
def Sched.sleepUntil (s : Sched) (wakeAt : Nat) : Sched :=
  s.modify s.current fun t => { t with wakeupTick := wakeAt, state := .blocked }

/-- The tick `sched_sleep(ms)` sleeps to, not 0, which would mean no sleep. -/
def Sched.wakeAt (s : Sched) (ms : UInt32) : Nat :=
  let wakeAt := (s.ticks + (ms.toNat + 9) % 2 ^ 32 / 10) % 2 ^ 32
  if wakeAt = 0 then 1 else wakeAt

def Sched.schedSleep (fuel : Nat) (s : Sched) (ms : UInt32) : Option Sched :=
  if ms = 0 then s.schedule fuel else (s.sleepUntil (s.wakeAt ms)).schedule fuel

/-- `current_task` becomes a zombie.  `code` is the exit code `sys_exit` has set; the
other callers of `sched_exit` set none. -/
def Sched.becomeZombie (s : Sched) (code : Option Int) : Sched :=
  let s := s.modify s.current fun t => { t with exitCode := code.getD t.exitCode }
  let s := s.releasePipeFds s.current
  s.modify s.current fun t => { t with state := .zombie, resume := .exited }

/-- `sched_exit` up to its idle loop. -/
def Sched.schedExit (fuel : Nat) (s : Sched) (code : Option Int) : Option Sched :=
  let s := s.becomeZombie code
  if s.cur.parentPid ≠ 0 then
    (s.search fuel fun p => p.pid == s.cur.parentPid && p.waiting).bind fun
      | some (_, p) => (s.wakeWaiting p).schedule fuel
      | none => s.schedule fuel
  else s.schedule fuel

/-- `sched_wait` returns to its caller. -/
def Sched.leaveWait (s : Sched) : Sched := s.modify s.current fun t => { t with resume := .outside }

/-- The zombie `t`, which comes after `prev`, is taken out of the ring and freed. -/
def Sched.reap (s : Sched) (prev t : Nat) : Sched :=
  let s' := s.modify prev fun p => { p with next := s.next t }
  { s' with block := update s'.block t .free }

/-- `current_task` blocks until a child is a zombie. -/
def Sched.blockInWait (s : Sched) : Sched :=
  s.modify s.current fun t => { t with waiting := true, state := .blocked, resume := .inWait }

/-- One iteration of `sched_wait`. -/
def Sched.schedWait (fuel : Nat) (s : Sched) : Option (WaitResult × Sched) :=
  (s.search fuel fun t => s.cur.zombieOf t.toTask).bind fun
    | some (prev, t) =>
      some (.reaped (asInt (s.tasks t).pid) (s.tasks t).exitCode, (s.reap prev t).leaveWait)
    | none =>
      (s.search fuel fun t => t.parentPid == s.cur.pid).bind fun
        | none => some (.noChild, s.leaveWait)
        | some _ => (s.blockInWait.schedule fuel).map fun s => (.blocked, s)

/-! ## signals -/

def Sched.sysKill (fuel : Nat) (s : Sched) (pid sig : UInt32) : Option (Int × Sched) :=
  (s.search fuel fun t => t.pid == pid.toNat).map fun
    | some (_, t) => (0, s.modify t fun p =>
      { p with pendingSigs := p.pendingSigs ||| (1 : UInt32) <<< sig })
    | none => (-1, s)

def Sched.schedCtrlc (s : Sched) : Sched :=
  match s.foreground with
  | none => s
  | some t =>
    if (s.tasks t).state ≠ .zombie then
      s.modify t fun p => { p with pendingSigs := p.pendingSigs ||| sigkill }
    else s

/-! ## steps and runs -/

/-- What can happen next: a call of the running task, the timer or Ctrl-C. -/
inductive Op where
  | create (a : Nat)
  | add (a : Nat)
  | fork (child : Option Nat)
  | yield
  | sleep (ms : UInt32)
  | wait
  | exit (code : Option Int)
  | kill (pid sig : UInt32)
  | setForeground (t : Option Nat)
  | ctrlc
  | tick

/-- Interrupts come at any time.  A task calls from outside the scheduler, or goes on in
`sched_wait`; the shell, which runs in the boot task, never ends.  Memory for a new
task is free, and only a new task is added. -/
def Op.allowed (s : Sched) : Op → Bool
  | .create a => s.cur.resume == .outside && s.block a == .free
  | .add a => s.cur.resume == .outside && s.block a == .created
  | .fork child => s.cur.resume == .outside && child.all fun a => s.block a == .free
  | .yield | .sleep _ | .kill _ _ | .setForeground _ => s.cur.resume == .outside
  | .exit _ => s.cur.resume == .outside && s.current != bootTask
  | .wait => s.cur.resume != .exited
  | .ctrlc | .tick => true

def Sched.step (fuel : Nat) (s : Sched) : Op → Option Sched
  | .create a => some (s.taskCreateUser a)
  | .add a => some (s.schedAdd a)
  | .fork child => some (s.sysFork child).2
  | .yield => s.schedule fuel
  | .sleep ms => s.schedSleep fuel ms
  | .wait => (s.schedWait fuel).map Prod.snd
  | .exit code => s.schedExit fuel code
  | .kill pid sig => (s.sysKill fuel pid sig).map Prod.snd
  | .setForeground t => some { s with foreground := t }
  | .ctrlc => some s.schedCtrlc
  | .tick => s.schedTick fuel

/-- The states reached from `s₀` by steps that satisfy `ok`. -/
inductive SchedRun (ok : Sched → Op → Prop) (s₀ : Sched) : Sched → Prop where
  | nil : SchedRun ok s₀ s₀
  | step {s s' : Sched} (fuel : Nat) (op : Op) :
      SchedRun ok s₀ s → op.allowed s = true → ok s op → s.step fuel op = some s' →
        SchedRun ok s₀ s'

/-- A run of given operations. -/
def Sched.exec (fuel : Nat) (s : Sched) : List Op → Option Sched
  | [] => some s
  | op :: ops => if op.allowed s then (s.step fuel op).bind fun s' => s'.exec fuel ops else none

/-- `boot_task` after `task_init` and `sched_init`. -/
def bootPcb : Pcb where
  pid := 0
  state := .running
  parentPid := 0
  exitCode := 0
  waiting := false
  fdTable := fun _ => ⟨false, .unset, 0, 0, 0, false⟩
  next := bootTask
  wakeupTick := 0
  pendingSigs := 0
  cwd := rootPath
  resume := .outside

/-- The scheduler after `sched_init`: the boot task alone in the ring. -/
structure Booted (s : Sched) : Prop where
  boot : s.tasks bootTask = bootPcb
  current : s.current = bootTask
  block : ∀ a, s.block a = if a = bootTask then .queued else .free
  nextPid : s.nextPid = 1
  pipes : ∀ pi, (s.pipes pi).nreaders = 0 ∧ (s.pipes pi).nwriters = 0
  foreground : s.foreground = none

/-- The scheduler after `sched_init`, in memory that held zeros. -/
def bootSched : Sched where
  tasks := fun _ => bootPcb
  block := fun a => if a = bootTask then .queued else .free
  current := bootTask
  nextPid := 1
  ticks := 0
  pipes := fun _ => ⟨fun _ => 0, 0, 0, 0, 0⟩
  foreground := none

theorem booted_bootSched : Booted bootSched :=
  ⟨rfl, rfl, fun _ => rfl, rfl, fun _ => ⟨rfl, rfl⟩, rfl⟩

/-- What `exec` gives is reached by a run. -/
theorem SchedRun.exec {s₀ s s' : Sched} {fuel : Nat} {ops : List Op}
    (hrun : SchedRun (fun _ _ => True) s₀ s)
    (h : s.exec fuel ops = some s') : SchedRun (fun _ _ => True) s₀ s' := by
  induction ops generalizing s with
  | nil =>
    cases h
    exact hrun
  | cons op ops ih =>
    rw [Sched.exec] at h
    split at h
    · rename_i hop
      obtain ⟨s₁, hstep, hrest⟩ := Option.bind_eq_some_iff.mp h
      exact ih (.step fuel op hrun hop trivial hstep) hrest
    · simp at h

end AliOS
