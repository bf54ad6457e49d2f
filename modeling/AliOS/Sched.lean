import AliOS.Alfs

/-!
# AliOS.Sched

Tasks (`kernel/task.h`) and `sched_wait` (`kernel/sched.c`).  The run queue is a
ring; the model has the running task and the list of the others in the order in
which `next` leads to them.  `sched_wait` is followed until it returns or blocks;
a task that is woken up calls it again.  Freeing the memory of a reaped task is
not modelled.
-/

namespace AliOS

open Lib

inductive TaskState where
  | ready
  | running
  | blocked
  | zombie
deriving DecidableEq

/-- What a descriptor stands for; `unset` is the zero of a fresh table. -/
inductive FdType where
  | unset
  | file
  | pipe
deriving DecidableEq

/-- `task_fd_t`. -/
structure TaskFd where
  used : Bool
  type : FdType
  alfsIdx : Int
  offset : Nat
  pipeIdx : Nat
  pipeWrite : Bool

def taskFdMax : Nat := 8

/-- `task_t`, as far as it is used here. -/
structure Task where
  pid : Nat
  state : TaskState
  parentPid : Nat
  exitCode : Int
  waiting : Bool
  fdTable : Nat → TaskFd

/-- A zombie that `cur` may reap. -/
def Task.zombieOf (cur t : Task) : Bool := t.state == .zombie && t.parentPid == cur.pid

/-- How a round of `sched_wait` ends. -/
inductive WaitResult where
  | reaped (pid code : Int)
  | noChild
  | blocked

/-- One round of `sched_wait` of the task `cur`: the result, `cur` and the rest of
the queue. -/
def schedWait (cur : Task) (queue : List Task) : WaitResult × Task × List Task :=
  match queue.find? cur.zombieOf with
  | some t => (.reaped (asInt t.pid) t.exitCode, cur, queue.eraseP cur.zombieOf)
  | none =>
    if queue.any fun t => t.parentPid == cur.pid then
      (.blocked, { cur with waiting := true, state := .blocked }, queue)
    else (.noChild, cur, queue)

end AliOS
