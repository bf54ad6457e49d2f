import AliOS.Sched.Wakeup

/-!
# AliOS.Sched.Parents

Parents and children in the run queue.  Nothing in `sched_exit`, the delivery of SIGKILL
or `sched_wait` looks at the children of the task that goes: they keep its pid as
`parent_pid`.  As long as `sched_wait` finds no zombie that has children itself, every
task but the boot task has its parent in the queue; a parent that is reaped before its
child leaves an orphan nobody can wait for.
-/

namespace AliOS

open Lib List

/-- No zombie that the caller of `sched_wait` may reap has children. -/
def ReapsChildless (s : Sched) : Op → Prop
  | .wait => ∀ t, s.block t = .queued → t ≠ s.current → s.cur.zombieOf (s.tasks t).toTask = true →
      ∀ c, s.block c ≠ .free → c ≠ t → (s.tasks c).parentPid ≠ (s.tasks t).pid
  | _ => True

/-- `p` is in the queue and has the pid that `b` has as `parent_pid`. -/
structure Sched.ParentOf (s : Sched) (p b : Nat) : Prop where
  queued : s.block p = .queued
  other : p ≠ b
  pid : (s.tasks p).pid = (s.tasks b).parentPid

/-- Every task but the boot task has its parent in the queue, whether it has been added
yet or not. -/
def Sched.Parented (s : Sched) : Prop :=
  ∀ b, s.block b ≠ .free → b ≠ bootTask → ∃ p, s.ParentOf p b

section

variable {s s' : Sched} {l : List Nat} {op : Op} {p b : Nat}

/-! ## one step -/

/-- The parent of a task stays in the queue unless `sched_wait` reaps it. -/
theorem StepTo.parentOf (hs : StepTo s l op s') (hl : Linked s l) (hok : ReapsChildless s op)
    (hb : s.block b ≠ .free) (h : s.ParentOf p b) : s'.ParentOf p b := by
  have hp : s.block p ≠ .free := by simp [h.queued]
  refine ⟨?_, h.other, ?_⟩
  · by_contra hleft
    obtain ⟨rfl, hcur, hz, hparent⟩ := hs.left hl h.queued hleft
    have hzombie : s.cur.zombieOf (s.tasks p).toTask := by
      simp [Task.zombieOf, hz, hparent]
    exact hok p h.queued hcur hzombie b hb h.other.symm h.pid.symm
  · rw [(hs.pids hl hp).1, (hs.pids hl hb).2]
    exact h.pid

theorem StepTo.parented (hs : StepTo s l op s') (hl : Linked s l) (hok : ReapsChildless s op)
    (h : s.Parented) : s'.Parented := by
  intro b hb' hboot
  by_cases hb : s.block b = .free
  · -- a new task is a child of the running one
    obtain ⟨hcur, fds, n, htask⟩ := hs.born hl hb hb'
    obtain ⟨l', hl'⟩ := hs.linked hl
    have hq := hl.cur_queued
    refine ⟨s.current, hcur ▸ hl'.cur_queued, fun heq => by simp [heq, hb] at hq, ?_⟩
    rw [(hs.pids hl (by simp [hq])).1, htask]
    rfl
  · obtain ⟨p, hp⟩ := h b hb hboot
    exact ⟨p, hs.parentOf hl hok hb hp⟩

/-! ## whole runs -/

theorem SchedRun.parented {s₀ s : Sched} (hboot : Booted s₀) (hrun : SchedRun ReapsChildless s₀ s) :
    s.Parented := by
  induction hrun with
  | nil =>
    intro b hb hne
    simp [hboot.block, hne] at hb
  | step fuel op hrun hop hok hstep ih =>
    obtain ⟨l, hl⟩ := hrun.linked hboot
    have hto := hl.step_some hop hstep
    exact hto.parented hl hok ih

/-! ## reaping -/

/-- The ring as another task of the queue sees it. -/
theorem Linked.seenFrom (hl : Linked s l) (hp : s.block p = .queued) :
    ∃ l', Linked { s with current := p } l' := by
  rcases mem_cons.mp ((hl.queued p).mpr hp) with rfl | hmem
  · exact ⟨l, hl⟩
  · obtain ⟨l₁, l₂, rfl⟩ := append_of_mem hmem
    refine ⟨l₂ ++ s.current :: l₁, hl.ring.rotate, fun a => ?_⟩
    rw [← hl.queued a]
    simp only [mem_cons, mem_append]
    tauto

/-- `sched_wait` finds a zombie if there is one among the children of its caller. -/
theorem Linked.schedWait_reaps (hl : Linked s l) (hb : b ∈ l)
    (hz : s.cur.zombieOf (s.tasks b).toTask) :
    ∃ fuel pid code s', s.schedWait fuel = some (.reaped pid code, s') := by
  obtain ⟨r, v, hv, hto, ⟨-, t, -, -, -, rfl, -⟩ | ⟨hblock, -⟩⟩ := hl.schedWait
  · exact ⟨_, _, _, _, hv.total le_rfl⟩
  · -- the other ends of the loop need a queue without such a zombie
    exfalso
    cases hto with
    | @reap l₁ l₂ t heq =>
      have hq : s.block t = .queued := (hl.queued t).mp (by simp [heq])
      have hfree : s.block t = .free := by
        rw [← hblock]
        exact Function.update_self _ _ _
      simp [hq] at hfree
    | noChild h =>
      simp only [Task.zombieOf, Bool.and_eq_true, beq_iff_eq] at hz
      exact h b hb hz.2
    | block hnone => simp [hnone b hb] at hz

/-- A zombie whose parent is in the queue can be reaped by it. -/
theorem Linked.parent_reaps (hl : Linked s l) (hb : s.block b = .queued)
    (hz : (s.tasks b).state = .zombie) (h : s.ParentOf p b) :
    ∃ fuel pid code s', Sched.schedWait fuel { s with current := p } =
      some (.reaped pid code, s') := by
  obtain ⟨l', hl'⟩ := hl.seenFrom h.queued
  have hmem : b ∈ l' := by
    rcases mem_cons.mp ((hl'.queued b).mpr hb) with heq | hmem
    · exact absurd heq.symm h.other
    · exact hmem
  refine hl'.schedWait_reaps hmem ?_
  simp only [Task.zombieOf, Bool.and_eq_true, beq_iff_eq]
  exact ⟨hz, h.pid.symm⟩

end

/-- **No task outlives its parent.**  In every run in which `sched_wait` meets no zombie
child that has children itself, every task in the queue but the boot task has its parent
in the queue; and a zombie is reaped, or another one before it, when its parent calls
`sched_wait`. -/
theorem parents_stay_queued {s₀ s : Sched} (hboot : Booted s₀)
    (hrun : SchedRun ReapsChildless s₀ s) :
    ∀ b, s.block b = .queued → b ≠ bootTask →
      ∃ p, s.block p = .queued ∧ p ≠ b ∧ (s.tasks p).pid = (s.tasks b).parentPid ∧
        ((s.tasks b).state = .zombie → ∃ fuel pid code s',
          Sched.schedWait fuel { s with current := p } = some (.reaped pid code, s')) := by
  intro b hb hne
  obtain ⟨l, hl⟩ := hrun.linked hboot
  obtain ⟨p, hp⟩ := hrun.parented hboot b (by simp [hb]) hne
  exact ⟨p, hp.queued, hp.other, hp.pid, fun hz => hl.parent_reaps hb hz hp⟩

/-- The boot task finds the zombie its child has become. -/
theorem parents_stay_queued_child :
    ∃ s, bootSched.exec 2 [.create 2, .add 2, .yield, .exit (some 7)] = some s ∧
    (s.tasks 2).state = .zombie ∧ ∃ p, s.block p = .queued ∧ p ≠ 2 ∧
      (s.tasks p).pid = (s.tasks 2).parentPid ∧
      ((s.tasks 2).state = .zombie → ∃ fuel pid code s',
        Sched.schedWait fuel { s with current := p } = some (.reaped pid code, s')) := by
  have hrun : SchedRun ReapsChildless bootSched _ :=
    .step 2 (.exit (some 7))
      (.step 2 .yield (.step 2 (.add 2) (.step 2 (.create 2) .nil rfl trivial rfl)
      rfl trivial rfl) rfl trivial rfl) rfl trivial rfl
  exact ⟨_, rfl, rfl, parents_stay_queued booted_bootSched hrun 2 rfl (by decide)⟩

/-- A child forks and exits, and its parent reaps it: the task it forked is in the queue,
and no task there has the pid of its parent. -/
theorem orphan_left : Booted bootSched ∧ ∃ s, SchedRun (fun _ _ => True) bootSched s ∧
    s.block 3 = .queued ∧ 3 ≠ bootTask ∧
    ∀ p, s.block p = .queued → (s.tasks p).pid ≠ (s.tasks 3).parentPid := by
  have htest : (bootSched.exec 3 [.create 2, .add 2, .yield, .fork (some 3), .exit (some 0), .yield,
      .wait]).any (fun s => s.block 3 == .queued && s.cur.pid != (s.tasks 3).parentPid &&
        s.search 3 (fun t => t.pid == (s.tasks 3).parentPid) == some none) = true := by
    decide +kernel
  obtain ⟨s, hexec, hs⟩ := (Option.any_eq_true _ _).mp htest
  simp only [Bool.and_eq_true, beq_iff_eq, bne_iff_ne] at hs
  obtain ⟨⟨hqueued, hcur⟩, hsearch⟩ := hs
  have hrun := SchedRun.nil.exec hexec
  refine ⟨booted_bootSched, s, hrun, hqueued, by decide, fun p hp => ?_⟩
  obtain ⟨l, hl⟩ := hrun.linked booted_bootSched
  have hnobody := findPrev_eq_none.mp
    ((hl.search fun t => t.pid == (s.tasks 3).parentPid).eq_of_some hsearch).symm
  rcases mem_cons.mp ((hl.queued p).mpr hp) with rfl | hmem
  · exact hcur
  · simpa using hnobody p hmem

end AliOS
