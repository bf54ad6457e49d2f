import AliOS.Sched.Cycle
import AliOS.Syscall.Files

/-!
# AliOS.System

The kernel as the tasks see it: the scheduler with the pipes and the descriptor tables
of its tasks, the file system, and the calls that work on both.  A step is a step of the
scheduler, a call of the running task, or a call of `alfs.c`.

Programs change memory between their calls, and `schedule` changes the address space.
So the machine is not part of the state: a call finds it in any condition, like the
disk, whose transfers may fail.
-/

namespace AliOS

open Lib Option

/-- The scheduler, the static variables of `alfs.c` and `syscall.c`, and the address of
`pipes[]`. -/
structure System extends Sched where
  fs : Fs
  writeBuf : Bytes
  pipesAt : Nat := 0x20000

/-- What a step depends on besides the state: the number of iterations its loops over
the run queue may take, the memory it finds and the outcomes of disk transfers. -/
structure Surroundings where
  fuel : Nat
  machine : Machine
  disk : List AtaOutcome

/-- The state in which `current_task` makes a call.  The calls below use nothing of the
other tasks. -/
def System.kernel (s : System) (e : Surroundings) : Kernel where
  machine := e.machine
  fs := s.fs.withScript e.disk
  pipes := s.pipes
  current := s.cur.toTask
  queue := []
  pipesAt := s.pipesAt

/-- The state a call of `current_task` leaves. -/
def System.put (s : System) (k : Kernel) : System :=
  { s with
    toSched := { s.modify s.current fun t => { t with toTask := k.current } with pipes := k.pipes }
    fs := k.fs }

theorem System.put_self (s : System) (k : Kernel) :
    (s.put k).tasks s.current = { s.cur with toTask := k.current } := Function.update_self _ _ _

theorem System.put_other (s : System) (k : Kernel) {b : Nat} (hb : b ≠ s.current) :
    (s.put k).tasks b = s.tasks b := Function.update_of_ne hb _ _

/-- The calls that work on descriptors.  `readOn` and `writeOn` are turns of a call on a
pipe that has been interrupted or has waited; `exec` has loaded the new image. -/
inductive FdCall where
  | open (name : CStr)
  | openW (uname : CStr) (append : Bool)
  | read (fd : Int) (buf len : Nat)
  | readOn (pi buf len n : Nat)
  | write (fd buf len : Nat)
  | writeOn (pi buf len n : Nat)
  | close (fd : Int)
  | pipe (userFds : Nat)
  | exec

/-- `write_buf` and the state after a call of a task with the working directory `cwd`. -/
def FdCall.run (k : Kernel) (cwd : CStr) (writeBuf : Bytes) : FdCall → Option (Bytes × Kernel)
  | .open name => some (writeBuf, (sysOpen k cwd name).2)
  | .openW uname append => some (writeBuf, (sysOpenW k cwd uname append).2)
  | .read fd buf len => (sysRead k fd buf len).map fun r => (writeBuf, r.2)
  | .readOn pi buf len n => (k.pipeReadOn pi buf len n).map fun r => (writeBuf, r.2)
  | .write fd buf len => (sysWrite k writeBuf fd buf len).map Prod.snd
  | .writeOn pi buf len n => (k.pipeWriteOn pi buf len n).map fun r => (writeBuf, r.2)
  | .close fd => some (writeBuf, (sysClose k fd).2)
  | .pipe userFds => (sysPipe k userFds).map fun r => (writeBuf, r.2)
  | .exec => some (writeBuf, k.execClose)

/-- A step: of the scheduler, a call of the running task, or a call of `alfs.c`.  When
`sys_exec` fails the task ends, with `sched_exit`. -/
inductive SysOp where
  | sched (op : Op)
  | call (c : FdCall)
  | alfs (c : AlfsCall)

/-- A call is made from outside the scheduler. -/
def SysOp.allowed (s : System) : SysOp → Bool
  | .sched op => op.allowed s.toSched
  | .call _ | .alfs _ => s.cur.resume == .outside

def System.step (e : Surroundings) (s : System) : SysOp → Option System
  | .sched op => (s.toSched.step e.fuel op).map fun s' => { s with toSched := s' }
  | .call c => (c.run (s.kernel e) s.cur.cwd s.writeBuf).map fun r =>
    { s.put r.2 with writeBuf := r.1 }
  | .alfs c => some { s with fs := (c.run e.disk s.fs).2 }

/-- The states reached from `s₀` by steps that satisfy `ok`. -/
inductive SysRun (ok : System → SysOp → Prop) (s₀ : System) : System → Prop where
  | nil : SysRun ok s₀ s₀
  | step {s s' : System} (e : Surroundings) (op : SysOp) :
      SysRun ok s₀ s → op.allowed s = true → ok s op → s.step e op = some s' → SysRun ok s₀ s'

/-! ## the ring of the run queue -/

/-- The links of the run queue are not in the reach of a call. -/
theorem Linked.put {s : System} {l : List Nat} (h : Linked s.toSched l) (k : Kernel) :
    Linked (s.put k).toSched l := by
  have hstore := s.toSched.stores_modify s.current fun t => { t with toTask := k.current }
  have hlinked := h.keeps (hstore.keeps rfl)
  exact ⟨hlinked.ring, hlinked.queued⟩

theorem System.step_linked {s s' : System} {l : List Nat} {e : Surroundings} {op : SysOp}
    (hl : Linked s.toSched l) (hop : op.allowed s) (hstep : s.step e op = some s') :
    ∃ l', Linked s'.toSched l' := by
  cases op with
  | sched o =>
    obtain ⟨t, ht, rfl⟩ := map_eq_some_iff.mp hstep
    have hto := hl.step_some hop ht
    exact hto.linked hl
  | call c =>
    obtain ⟨r, -, rfl⟩ := map_eq_some_iff.mp hstep
    exact ⟨l, hl.put r.2⟩
  | alfs c =>
    cases hstep
    exact ⟨l, hl⟩

theorem SysRun.linked {ok : System → SysOp → Prop} {s₀ s : System} (hboot : Booted s₀.toSched)
    (hrun : SysRun ok s₀ s) : ∃ l, Linked s.toSched l := by
  induction hrun with
  | nil => exact ⟨[], hboot.linked⟩
  | step e op _ hop _ hstep ih =>
    obtain ⟨l, hl⟩ := ih
    exact System.step_linked hl hop hstep

/-! ## runs of given steps -/

/-- A run of given steps. -/
def System.exec (e : Surroundings) (s : System) : List SysOp → Option System
  | [] => some s
  | op :: ops => if op.allowed s then (s.step e op).bind fun s' => s'.exec e ops else none

/-- What `exec` gives is reached by a run. -/
theorem SysRun.exec {ok : System → SysOp → Prop} {s₀ s s' : System} {e : Surroundings}
    {ops : List SysOp}
    (hrun : SysRun ok s₀ s) (hok : ∀ op ∈ ops, ∀ s, ok s op)
    (h : s.exec e ops = some s') : SysRun ok s₀ s' := by
  induction ops generalizing s with
  | nil =>
    cases h
    exact hrun
  | cons op ops ih =>
    obtain ⟨hop, hops⟩ := List.forall_mem_cons.mp hok
    rw [System.exec] at h
    split at h
    · rename_i hallowed
      obtain ⟨s₁, hstep, hrest⟩ := bind_eq_some_iff.mp h
      exact ih (.step e op hrun hallowed (hop s) hstep) hops hrest
    · simp at h

/-- The system after booting, with the directory `dir`. -/
def bootSystem (dir : Bytes) : System where
  toSched := bootSched
  fs := blankFs dir
  writeBuf := fun _ => 0

/-- The path "/a". -/
def pathA : CStr := ⟨[slash, 97], by simp [slash]⟩

/-- The path "/b". -/
def pathB : CStr := ⟨[slash, 98], by simp [slash]⟩

/-- A directory with the file "/a", of one byte. -/
def dirA : Bytes := setEntry (fun _ => 0) 0 pathA 7 1 alfsFlagUsed

theorem terminated_dirA : Terminated dirA := by
  show ∀ i < alfsMaxFiles, entryUsed dirA i = true → (nameOf dirA i).length < alfsNameMax
  decide +kernel

end AliOS
