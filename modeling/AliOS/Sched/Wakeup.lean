import AliOS.Sched.Cycle

/-!
# AliOS.Sched.Wakeup

No wake-up is lost: a blocked task has a wake-up time, or it waits for a child that is in
the queue.  The child is reaped by a task with the pid of its parent; pids are handed out
from a 32-bit counter, and this task need not be the parent once the counter has gone
round.
-/

namespace AliOS

open Lib Function

/-! ## the condition -/

/-- A task that calls `sched_wait` shares its pid with no other task of the queue. -/
def OwnPid (s : Sched) : Op → Prop
  | .wait => ∀ b, s.block b = .queued → b ≠ s.current → (s.tasks b).pid ≠ s.cur.pid
  | _ => True

/-! ## the invariant -/

/-- The task at `b` will be woken up: it sleeps, or it waits for a child in the queue. -/
def Sched.Awaits (s : Sched) (b : Nat) : Prop :=
  (s.tasks b).wakeupTick ≠ 0 ∨
    (s.tasks b).waiting = true ∧ ∃ c, s.block c = .queued ∧ (s.tasks c).parentPid = (s.tasks b).pid

/-- Every blocked task will be woken up, and `current_task`, when it goes on although it
is blocked for its children, has no zombie among them. -/
structure Wakes (s : Sched) : Prop where
  awaits : ∀ b, s.block b = .queued → (s.tasks b).state = .blocked → s.Awaits b
  current : s.cur.state = .blocked → s.cur.wakeupTick = 0 →
    ∀ c, s.block c = .queued → (s.tasks c).parentPid = s.cur.pid → (s.tasks c).state ≠ .zombie

section

variable {s s' s₁ : Sched} {l : List Nat} {op : Op} {b c : Nat} {t : Pcb} {sched : Bool}

theorem Sched.wakeAt_ne_zero (s : Sched) (ms : UInt32) : s.wakeAt ms ≠ 0 := by
  unfold Sched.wakeAt
  dsimp only
  split <;> simp_all

theorem Pcb.ticked_blocked {now : Nat} (h : (t.ticked now).state = .blocked) :
    t.ticked now = t := by
  obtain ⟨-, -, heq⟩ | ⟨-, heq⟩ := t.ticked_cases now
  · rw [heq] at h
    simp [Pcb.killed] at h
  · rw [heq] at h ⊢
    obtain heq' | ⟨-, -, heq'⟩ := t.wakeSleeper_cases now
    · exact heq'
    · simp [heq'] at h

theorem TaskActs.pids (ht : TaskActs s l op sched b t) (hl : Linked s l) :
    t.pid = (s.tasks b).pid ∧ t.parentPid = (s.tasks b).parentPid := by
  cases ht with
  | tick hmem =>
    obtain ⟨-, heq⟩ | ⟨-, heq⟩ := s.passed_cases hl.ring.nodup hmem <;> rw [heq] <;>
      exact ⟨(Pcb.ticked_frame _ _).2.1, (Pcb.ticked_frame _ _).2.2.1⟩
  | _ => exact ⟨rfl, rfl⟩

/-- A task that is blocked when `schedule` is called: it was so before, or it goes to sleep
or waits for its children now. -/
theorem TaskActs.blocked (ht : TaskActs s l op sched b t) (hl : Linked s l)
    (h : t.state = .blocked) :
    (s.tasks b).state = .blocked ∧ t.wakeupTick = (s.tasks b).wakeupTick ∧
      t.waiting = (s.tasks b).waiting ∨
    t.wakeupTick ≠ 0 ∨
    op = .wait ∧ b = s.current ∧ t.waiting ∧
      (∀ c ∈ l, s.cur.zombieOf (s.tasks c).toTask = false) ∧
        ∃ c ∈ l, (s.tasks c).parentPid = s.cur.pid := by
  cases ht with
  | same => exact .inl ⟨h, rfl, rfl⟩
  | add => simp at h
  | sleep => exact .inr (.inl (s.wakeAt_ne_zero _))
  | leaveWait => exact .inl ⟨h, rfl, rfl⟩
  | block hz hc hchild => exact .inr (.inr ⟨rfl, rfl, rfl, hz, _, hc, hchild⟩)
  | exit => simp [Pcb.exited] at h
  | parent => simp [Pcb.woken] at h
  | kill => exact .inl ⟨h, rfl, rfl⟩
  | ctrlc => exact .inl ⟨h, rfl, rfl⟩
  | tick hmem =>
    obtain ⟨-, heq⟩ | ⟨-, heq⟩ := s.passed_cases hl.ring.nodup hmem
    · simp [heq, Pcb.woken] at h
    · rw [heq] at h
      rw [heq, Pcb.ticked_blocked h]
      rw [Pcb.ticked_blocked h] at h
      exact .inl ⟨h, rfl, rfl⟩

/-- A task that is a zombie when `schedule` is called: it was so before, or it exits or is
killed now. -/
theorem TaskActs.dies (ht : TaskActs s l op sched b t) (h : t.state = .zombie) :
    (s.tasks b).state = .zombie ∨ b = s.current ∨ op = .tick := by
  cases ht with
  | same => exact .inl h
  | add => simp at h
  | leaveWait => exact .inl h
  | parent => simp [Pcb.woken] at h
  | kill => exact .inl h
  | ctrlc => exact .inl h
  | tick => exact .inr (.inr rfl)
  | _ => exact .inr (.inl rfl)

/-- **After the loops of `sched_tick`** no task waits for a zombie. -/
theorem Sched.passed_waits (s : Sched) (hl : (s.current :: l).Nodup) (hb : b ∈ s.current :: l)
    (hc : c ∈ s.current :: l) (hblocked : ((s.passed l).tasks b).state = .blocked)
    (hwait : ((s.passed l).tasks b).waiting)
    (hchild : ((s.passed l).tasks c).parentPid = ((s.passed l).tasks b).pid) :
    ((s.passed l).tasks c).state ≠ .zombie := by
  obtain ⟨-, heq⟩ | ⟨hnot, heq⟩ := s.passed_cases hl hb
  · simp [heq, Pcb.woken] at hblocked
  obtain ⟨-, heq'⟩ | ⟨-, heq'⟩ := s.passed_cases hl hc
  · simp [heq', Pcb.woken]
  rw [heq] at hblocked hwait hchild
  rw [heq'] at hchild ⊢
  rw [(Pcb.ticked_frame _ _).2.2.2.1] at hwait
  rw [(Pcb.ticked_frame _ _).2.1, (Pcb.ticked_frame _ _).2.2.1] at hchild
  exact fun hz => hnot ⟨hblocked, hwait, c, hc, hz, hchild⟩

/-- A task that is blocked after a step: what it was before `schedule`. -/
theorem StepTo.still (hs : StepTo s l op s') (hl : Linked s l) (hb' : s'.block b = .queued)
    (h : (s'.tasks b).state = .blocked ∨ (s'.tasks b).state = .zombie) : s.block b = .queued ∧
    ∃ sched t n, TaskActs s l op sched b t ∧ s'.tasks b = { t with next := n } ∧
      (b = s'.current → b = s.current) := by
  have hq : s.block b = .queued := by
    by_contra hq
    simp [hs.entered hl hq hb'] at h
  obtain ⟨sched, t, n, st, ht, heq, ⟨rfl, hc⟩ | ⟨-, rfl⟩ | ⟨-, -, rfl⟩⟩ :=
    hs.task hl (b := b) (by simp [hq])
  · exact ⟨hq, sched, t, n, ht, heq, hc⟩
  · simp [heq] at h
  · simp [heq] at h

theorem StepTo.pids (hs : StepTo s l op s') (hl : Linked s l) (hb : s.block b ≠ .free) :
    (s'.tasks b).pid = (s.tasks b).pid ∧ (s'.tasks b).parentPid = (s.tasks b).parentPid := by
  obtain ⟨sched, t, n, st, ht, heq, -⟩ := hs.task hl hb
  rw [heq]
  exact ht.pids hl

/-- A blocked task is woken up later, or its child has been reaped by another task with its
pid. -/
theorem StepTo.awaits (hs : StepTo s l op s') (hl : Linked s l) (hok : OwnPid s op) (h : Wakes s)
    (hb' : s'.block b = .queued) (hblocked : (s'.tasks b).state = .blocked) : s'.Awaits b := by
  obtain ⟨hb, sched, t, n, ht, heq, -⟩ := hs.still hl hb' (.inl hblocked)
  have hsame : (s'.tasks b).wakeupTick = t.wakeupTick ∧ (s'.tasks b).waiting = t.waiting := by
    rw [heq]
    exact ⟨rfl, rfl⟩
  have hchild : ∀ {c}, s.block c = .queued → (s.tasks c).parentPid = (s.tasks b).pid →
      s'.block c = .queued → t.waiting = true → s'.Awaits b := by
    intro c hc hp hc' hwait
    refine .inr ⟨hsame.2.trans hwait, c, hc', ?_⟩
    rw [(hs.pids hl (by simp [hc])).2, (hs.pids hl (by simp [hb])).1, hp]
  rw [heq] at hblocked
  obtain ⟨hwas, hk, hw⟩ | hne | ⟨rfl, rfl, hwait, hz, c, hc, hp⟩ := ht.blocked hl hblocked
  · obtain hne | ⟨hwait, c, hc, hp⟩ := h.awaits b hb hwas
    · exact .inl (by rwa [hsame.1, hk])
    by_cases hc' : s'.block c = .queued
    · exact hchild hc hp hc' (hw.trans hwait)
    -- the child has been reaped, so the caller of `sched_wait` has the pid of this task
    obtain ⟨rfl, -, hz, hparent⟩ := hs.left hl hc hc'
    by_cases hbc : b = s.current
    · subst hbc
      by_cases h0 : s.cur.wakeupTick = 0
      · exact absurd hz (h.current hwas h0 c hc hp)
      · exact .inl (by rw [hsame.1, hk]; exact h0)
    · exact absurd (hp.symm.trans hparent) (hok b hb hbc)
  · exact .inl (by rwa [hsame.1])
  · have hcq := (hl.queued c).mp (List.mem_cons_of_mem _ hc)
    by_cases hc' : s'.block c = .queued
    · exact hchild hcq hp hc' hwait
    · obtain ⟨-, -, hzombie, -⟩ := hs.left hl hcq hc'
      exact absurd (hz c hc) (by simp [Task.zombieOf, hzombie, hp])

/-- **One step keeps the invariant.** -/
theorem StepTo.wakes (hs : StepTo s l op s') (hl : Linked s l) (hok : OwnPid s op) (h : Wakes s) :
    Wakes s' := by
  refine ⟨fun b => hs.awaits hl hok h, fun hblocked h0 c hc' hp hz => ?_⟩
  obtain ⟨l', hl'⟩ := hs.linked hl
  obtain ⟨hb, sched, t, n, ht, heq, hcur⟩ := hs.still hl hl'.cur_queued (.inl hblocked)
  obtain ⟨hc, sched', t', n', ht', heq', -⟩ := hs.still hl hc' (.inr hz)
  have hcb : c ≠ s.current := fun hcb => by
    rw [hcb, ← hcur rfl] at hz
    exact absurd (hz.symm.trans hblocked) (by simp)
  unfold Sched.cur at hblocked h0 hp
  rw [(hs.pids hl (by simp [hc])).2, (hs.pids hl (by simp [hb])).1, hcur rfl] at hp
  rw [heq] at hblocked h0
  rw [heq'] at hz
  rw [hcur rfl] at ht
  have hdies := ht'.dies hz
  obtain ⟨hwas, hk, hw⟩ | hne | ⟨rfl, -, -, hnone, -⟩ := ht.blocked hl hblocked
  · have h0' : s.cur.wakeupTick = 0 := hk.symm.trans h0
    obtain hz' | hcb' | rfl := hdies
    · exact h.current hwas h0' c hc hp hz'
    · exact hcb hcb'
    · -- killed by this tick: then the second loop has woken `current_task` up
      have hwait : (s.tasks s.current).waiting := by
        obtain hne | ⟨hwait, -⟩ := h.awaits s.current hl.cur_queued hwas
        · exact absurd h0' hne
        · exact hwait
      have hpids := ht.pids hl
      have hpids' := ht'.pids hl
      have hmem := (hl.queued c).mpr hc
      cases ht with
      | same hout => exact hout rfl List.mem_cons_self
      | tick =>
        cases ht' with
        | same hout => exact hout rfl hmem
        | tick =>
          exact s.passed_waits hl.ring.nodup List.mem_cons_self hmem hblocked (hw.trans hwait)
            ((hpids'.2.trans hp).trans hpids.1.symm) hz
  · exact hne h0
  · obtain hz' | hcb' | htick := hdies
    · have hmem : c ∈ l := by simpa [hcb] using (hl.queued c).mpr hc
      exact absurd (hnone c hmem) (by simp [Task.zombieOf, hz', hp, Sched.cur])
    · exact hcb hcb'
    · simp at htick

end

theorem Booted.wakes {s : Sched} (h : Booted s) : Wakes s := by
  have hstate : ∀ b, s.block b = .queued → (s.tasks b).state = .running := by
    intro b hb
    have hboot : b = bootTask := by
      by_contra hne
      simp [h.block, hne] at hb
    rw [hboot, h.boot]
    rfl
  refine ⟨fun b hb hblocked => ?_, fun hblocked => ?_⟩
  · simp [hstate b hb] at hblocked
  · simp [Sched.cur, hstate _ h.linked.cur_queued] at hblocked

theorem SchedRun.wakes {s₀ s : Sched} (hboot : Booted s₀) (hrun : SchedRun OwnPid s₀ s) :
    Wakes s := by
  induction hrun with
  | nil => exact hboot.wakes
  | step fuel op hrun hop hok hstep ih =>
    obtain ⟨l, hl⟩ := hrun.linked hboot
    have hto := hl.step_some hop hstep
    exact hto.wakes hl hok ih

/-- **No wake-up is lost.**  In every run in which no task calls `sched_wait` while another
task has its pid, every blocked task has a wake-up time or waits for a child that is in
the queue; and when the loops of `sched_tick` are done, no task waits for a zombie. -/
theorem no_lost_wakeup {s₀ s : Sched} (hboot : Booted s₀) (hrun : SchedRun OwnPid s₀ s) :
    (∀ b, s.block b = .queued → (s.tasks b).state = .blocked → (s.tasks b).wakeupTick ≠ 0 ∨
      (s.tasks b).waiting = true ∧ ∃ c, s.block c = .queued ∧
        (s.tasks c).parentPid = (s.tasks b).pid) ∧
    ∃ n s₁, (∀ fuel, n ≤ fuel → s.tickPasses fuel = some s₁) ∧ s₁.block = s.block ∧
      ∀ b c, s₁.block b = .queued → s₁.block c = .queued → (s₁.tasks b).state = .blocked →
        (s₁.tasks b).waiting = true → (s₁.tasks c).parentPid = (s₁.tasks b).pid →
        (s₁.tasks c).state ≠ .zombie := by
  obtain ⟨l, hl⟩ := hrun.linked hboot
  have hblock := (s.keeps_passed l).block
  refine ⟨(hrun.wakes hboot).awaits, l.length, s.passed l, fun fuel => hl.tickPasses.total, hblock,
    fun b c hb hc => ?_⟩
  rw [hblock] at hb hc
  exact s.passed_waits hl.ring.nodup ((hl.queued b).mpr hb) ((hl.queued c).mpr hc)

/-- The boot task waits for its child. -/
theorem no_lost_wakeup_child : ∃ s, bootSched.exec 2 [.create 2, .add 2, .wait] = some s ∧
    (s.tasks 1).state = .blocked ∧ ((s.tasks 1).wakeupTick ≠ 0 ∨ (s.tasks 1).waiting = true ∧
      ∃ c, s.block c = .queued ∧ (s.tasks c).parentPid = (s.tasks 1).pid) := by
  have hadd : SchedRun OwnPid bootSched ((bootSched.taskCreateUser 2).schedAdd 2) :=
    .step 2 (.add 2) (.step 2 (.create 2) .nil rfl trivial rfl) rfl trivial rfl
  have hown : OwnPid ((bootSched.taskCreateUser 2).schedAdd 2) .wait := by
    intro b hq hne
    by_cases hb : b = 2
    · subst hb
      decide
    · have hfree : ((bootSched.taskCreateUser 2).schedAdd 2).block b = .free := by
        show update (update bootSched.block 2 .created) 2 .queued b = .free
        rw [update_of_ne hb, update_of_ne hb]
        exact if_neg hne
      simp [hfree] at hq
  have hwait := SchedRun.step 2 .wait hadd rfl hown rfl
  exact ⟨_, rfl, rfl, (no_lost_wakeup booted_bootSched hwait).1 1 rfl rfl⟩

/-! ## a pid that is used twice

`next_pid` is a 32-bit counter, so a task that starts and reaps children for long enough gets
one with the pid of its own parent; this child then counts as the parent in `sched_exit` and
`sched_wait`, and the real parent waits for ever. -/

/-- The descriptors of a new task in memory that was never used. -/
def newFds : Nat → TaskFd := clearFds bootPcb.fdTable

/-- A new task. -/
def newPcb (pid parentPid next : Nat) (state : TaskState) : Pcb :=
  { bootPcb with
    pid := pid, parentPid := parentPid, next := next, fdTable := newFds, state := state }

/-- The task is blocked in `sched_wait`. -/
def Pcb.inWait (t : Pcb) : Pcb := { t with state := .blocked, waiting := true, resume := .inWait }

/-- The task has exited. -/
def Pcb.ended (t : Pcb) : Pcb := { t with state := .zombie, resume := .exited }

/-- The shell waits for task 2, which waits for its child, task 3; the memory at 4 is for a
child of that one. -/
def nested (c k : Nat) (t₃ t₄ : Pcb) (b : Block) : Sched where
  tasks
    | 1 => { bootPcb.inWait with next := 2 }
    | 2 => (newPcb 1 0 3 .running).inWait
    | 3 => t₃
    | 4 => t₄
    | _ => bootPcb
  block
    | 1 | 2 | 3 => .queued
    | 4 => b
    | _ => .free
  current := c
  nextPid := k
  ticks := 0
  pipes := bootSched.pipes
  foreground := none

section

variable {s s' s'' : Sched} {c k p q x : Nat} {t₃ t₄ : Pcb} {b : Block} (f : Pcb → Pcb)

theorem nested_modify₃ : (nested c k t₃ t₄ b).modify 3 f = nested c k (f t₃) t₄ b := by
  refine congrArg (Sched.mk · _ _ _ _ _ _) (funext fun a => ?_)
  rcases a with _ | _ | _ | _ | _ | a <;> rfl

theorem nested_modify₄ : (nested c k t₃ t₄ b).modify 4 f = nested c k t₃ (f t₄) b := by
  refine congrArg (Sched.mk · _ _ _ _ _ _) (funext fun a => ?_)
  rcases a with _ | _ | _ | _ | _ | a <;> rfl

/-- What `schedule` makes of the task that loses the processor. -/
def Pcb.preempted (t : Pcb) : Pcb := if t.state = .running then { t with state := .ready } else t

theorem nested_switchTo₄ : (nested 3 k t₃ t₄ b).switchTo 4 =
    nested 4 k t₃.preempted { t₄ with state := .running } b := by
  show { (Sched.modify (Sched.modify _ 3 Pcb.preempted) 4 _) with current := 4 } = _
  rw [nested_modify₃, nested_modify₄]
  rfl

theorem nested_switchTo₃ : (nested 4 k t₃ t₄ b).switchTo 3 =
    nested 3 k { t₃ with state := .running } t₄.preempted b := by
  show { (Sched.modify (Sched.modify _ 4 Pcb.preempted) 3 _) with current := 3 } = _
  rw [nested_modify₄, nested_modify₃]
  rfl

theorem Sched.releasePipeFds_unused {s : Sched} {a : Nat}
    (h : ∀ i, ((s.tasks a).fdTable i).used = false) :
    s.releasePipeFds a = s := by
  have hst : forRange releaseFd 0 taskFdMax ((s.tasks a).fdTable, s.pipes) =
      ((s.tasks a).fdTable, s.pipes) :=
    forRange_induct (fun _ st => st = _) rfl fun i _ _ _ hst => by simp [hst, releaseFd, h]
  simp only [Sched.releasePipeFds, hst, Sched.modify, update_eq_self]

theorem Sched.inheritFds_unused {s : Sched} {fdTable : Nat → TaskFd} {a : Nat}
    (heq : (s.tasks a).fdTable = fdTable) (h : ∀ i, (fdTable i).used = false) :
    s.inheritFds fdTable a = s := by
  subst heq
  have hst : forRange (inheritFd (s.tasks a).fdTable) 0 taskFdMax ((s.tasks a).fdTable, s.pipes) =
      ((s.tasks a).fdTable, s.pipes) :=
    forRange_induct (fun _ st => st = _) rfl fun i _ _ _ hst => by simp [hst, inheritFd, h]
  simp only [Sched.inheritFds, hst, Sched.modify, update_eq_self]

/-- Task 3 starts a child. -/
theorem nested_fork (ht : clearFds t₄.fdTable = newFds) :
    (nested 3 k (newPcb 2 1 1 .running) t₄ .free).step 4 (.fork (some 4)) =
      some (nested 3 ((k + 1) % 2 ^ 32) (newPcb 2 1 4 .running) (newPcb k 2 1 .ready) .queued) := by
  have hcreate : (nested 3 k (newPcb 2 1 1 .running) t₄ .free).taskCreateUser 4 =
      nested 3 ((k + 1) % 2 ^ 32) (newPcb 2 1 1 .running)
        { newPcb k 2 0 .ready with fdTable := clearFds t₄.fdTable } .created := by
    refine congrArg₂ (Sched.mk · · _ _ _ _ _) (funext fun a => ?_) (funext fun a => ?_) <;>
      rcases a with _ | _ | _ | _ | _ | a <;> rfl
  have hadd : (nested 3 ((k + 1) % 2 ^ 32) (newPcb 2 1 1 .running)
      (newPcb k 2 0 .ready) .created).schedAdd 4 =
      nested 3 ((k + 1) % 2 ^ 32) (newPcb 2 1 4 .running) (newPcb k 2 1 .ready) .queued := by
    refine congrArg₂ (Sched.mk · · _ _ _ _ _) (funext fun a => ?_) (funext fun a => ?_) <;>
      rcases a with _ | _ | _ | _ | _ | a <;> rfl
  show some ((Sched.inheritFds (Sched.taskCreateUser _ 4) newFds 4).schedAdd 4) = _
  rw [hcreate, ht, Sched.inheritFds_unused (by rfl) fun i => rfl]
  exact congrArg some hadd

/-- The processor goes to the task at `x`. -/
theorem Sched.schedule_to (hto : s.switchTo x = s')
    (hx : s.search 4 Pcb.runnable = some (some (q, x))) :
    s.schedule 4 = some s' := by
  rw [Sched.schedule, hx, ← hto]
  rfl

/-- A task waits for a child. -/
theorem Sched.wait_to {child : Nat × Nat} (hblock : s.blockInWait = s') (hto : s'.switchTo x = s'')
    (hz : s.search 4 (fun t => s.cur.zombieOf t.toTask) = some none)
    (hchild : s.search 4 (fun t => t.parentPid == s.cur.pid) = some (some child))
    (hx : s'.search 4 Pcb.runnable = some (some (q, x))) : s.step 4 .wait = some s'' := by
  simp [Sched.step, Sched.schedWait, hz, hchild, hblock, Sched.schedule_to hto hx]

/-- A task exits, and the task at `y` counts as its parent. -/
theorem Sched.exit_to {y q' : Nat} {s₁ : Sched} (hz : s.becomeZombie none = s')
    (hwake : s'.wakeWaiting y = s₁) (hto : s₁.switchTo x = s'') (h0 : s'.cur.parentPid ≠ 0)
    (hp : s'.search 4 (fun p => p.pid == s'.cur.parentPid && p.waiting) = some (some (q', y)))
    (hx : s₁.search 4 Pcb.runnable = some (some (q, x))) : s.step 4 (.exit none) = some s'' := by
  simp only [Sched.step, Sched.schedExit, hz, if_pos h0, hp, Option.bind_some, hwake,
    Sched.schedule_to hto hx]

theorem nested_zombie₃ (h : ∀ i, (t₃.fdTable i).used = false) :
    (nested 3 k t₃ t₄ b).becomeZombie none = nested 3 k t₃.ended t₄ b := by
  rw [Sched.becomeZombie]
  show Sched.modify (Sched.releasePipeFds (Sched.modify _ 3 _) 3) 3 _ = _
  rw [nested_modify₃, Sched.releasePipeFds_unused h]
  exact nested_modify₃ _

theorem nested_zombie₄ (h : ∀ i, (t₄.fdTable i).used = false) :
    (nested 4 k t₃ t₄ b).becomeZombie none = nested 4 k t₃ t₄.ended b := by
  rw [Sched.becomeZombie]
  show Sched.modify (Sched.releasePipeFds (Sched.modify _ 4 _) 4) 4 _ = _
  rw [nested_modify₄, Sched.releasePipeFds_unused h]
  exact nested_modify₄ _

/-- Task 3 reaps its child. -/
theorem nested_reap :
    (nested 3 k { newPcb 2 1 4 .running with resume := .inWait }
      (newPcb p 2 1 .running).ended .queued).step
      4 .wait = some (nested 3 k (newPcb 2 1 1 .running) (newPcb p 2 1 .running).ended .free) := by
  refine congrArg some (congrArg₂ (Sched.mk · · _ _ _ _ _) (funext fun a => ?_)
    (funext fun a => ?_)) <;>
    rcases a with _ | _ | _ | _ | _ | a <;> rfl

end

/-- A state between two children of task 3 is reached, with `k` as the next pid. -/
def Reaches (k : Nat) : Prop :=
  ∃ t, clearFds t.fdTable = newFds ∧
    SchedRun (fun _ _ => True) bootSched (nested 3 k (newPcb 2 1 1 .running) t .free)

theorem Reaches.first : Reaches 3 := by
  have h1 := SchedRun.nil.exec (show bootSched.exec 4 [.create 2, .add 2, .wait] = some _ from rfl)
  have h2 := h1.step 4 (.fork (some 3)) rfl trivial rfl
  rw [Sched.sysFork, Sched.inheritFds_unused (by rfl) fun i => rfl] at h2
  have h3 := h2.step 4 .wait rfl trivial rfl
  refine ⟨bootPcb, rfl, Eq.subst (congrArg₂ (Sched.mk · · _ _ _ _ _) (funext fun a => ?_)
    (funext fun a => ?_)) h3⟩ <;>
    rcases a with _ | _ | _ | _ | _ | a <;> rfl

/-- Task 3 starts a child, waits for it and reaps it: only the next pid is another one. -/
theorem Reaches.round {k : Nat} (h : Reaches k) : Reaches ((k + 1) % 2 ^ 32) := by
  obtain ⟨t, ht, hrun⟩ := h
  have h1 := hrun.step 4 (.fork (some 4)) rfl trivial (nested_fork ht)
  have h2 : SchedRun (fun _ _ => True) bootSched (nested 4 ((k + 1) % 2 ^ 32)
      (newPcb 2 1 4 .running).inWait (newPcb k 2 1 .running) .queued) :=
    h1.step 4 .wait rfl trivial (Sched.wait_to (nested_modify₃ _) nested_switchTo₄ rfl rfl rfl)
  have h3 : SchedRun (fun _ _ => True) bootSched (nested 3 ((k + 1) % 2 ^ 32)
      { newPcb 2 1 4 .running with resume := .inWait } (newPcb k 2 1 .running).ended .queued) :=
    h2.step 4 (.exit none) rfl trivial
      (Sched.exit_to (nested_zombie₄ fun i => rfl) (nested_modify₃ _)
      nested_switchTo₃ (show 2 ≠ 0 by decide) rfl rfl)
  exact ⟨(newPcb k 2 1 .running).ended, rfl, h3.step 4 .wait rfl trivial nested_reap⟩

theorem reaches_all (n : Nat) : Reaches ((3 + n) % 2 ^ 32) := by
  induction n with
  | zero => exact .first
  | succ n ih =>
    have hnext : ((3 + n) % 2 ^ 32 + 1) % 2 ^ 32 = (3 + (n + 1)) % 2 ^ 32 := by omega
    exact hnext ▸ ih.round

/-- After 2^32 children the next pid is that of task 2.  The child that gets it takes the
wake-up of task 2 and reaps task 3, for which task 2 waits. -/
theorem wakeup_lost : Booted bootSched ∧ ∃ s, SchedRun (fun _ _ => True) bootSched s ∧
    s.block 2 = .queued ∧ (s.tasks 2).state = .blocked ∧ (s.tasks 2).wakeupTick = 0 ∧
    ∀ c, s.block c = .queued → (s.tasks c).parentPid ≠ (s.tasks 2).pid := by
  obtain ⟨t, ht, hrun⟩ : Reaches 1 := reaches_all (2 ^ 32 - 2)
  have h1 := hrun.step 4 (.fork (some 4)) rfl trivial (nested_fork ht)
  have h2 : SchedRun (fun _ _ => True) bootSched
      (nested 4 2 (newPcb 2 1 4 .ready) (newPcb 1 2 1 .running) .queued) :=
    h1.step 4 .yield rfl trivial (Sched.schedule_to nested_switchTo₄ rfl)
  have h3 : SchedRun (fun _ _ => True) bootSched
      (nested 3 2 (newPcb 2 1 4 .running) (newPcb 1 2 1 .running).inWait .queued) :=
    h2.step 4 .wait rfl trivial (Sched.wait_to (nested_modify₄ _) nested_switchTo₃ rfl rfl rfl)
  have h4 : SchedRun (fun _ _ => True) bootSched (nested 4 2 (newPcb 2 1 4 .running).ended
      { newPcb 1 2 1 .running with resume := .inWait } .queued) :=
    h3.step 4 (.exit none) rfl trivial
      (Sched.exit_to (nested_zombie₃ fun i => rfl) (nested_modify₄ _)
      nested_switchTo₄ (by decide) rfl rfl)
  refine ⟨booted_bootSched, _, h4.step 4 .wait rfl trivial rfl, rfl, rfl, rfl, fun c hc => ?_⟩
  rcases c with _ | _ | _ | _ | _ | c
  · cases hc
  · decide
  · decide
  · cases hc
  · decide
  · cases hc

end AliOS
