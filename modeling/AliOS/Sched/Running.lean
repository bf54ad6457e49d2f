import AliOS.Sched.Cycle

/-!
# AliOS.Sched.Running

The task that has the processor is the one task in the state `TASK_RUNNING`, as long as
the processor is never given up for nothing: a task that sleeps or waits for a child,
and a task that SIGKILL hits, must leave another task that can run.  `schedule` returns
to a task that has blocked when it finds no other.
-/

namespace AliOS

open Lib List

/-! ## the condition -/

/-- The task at `x` can run once the loops of `sched_tick` are done, even if
`current_task` is killed in them: it is ready, its sleep is over, or it waits for
`current_task`. -/
def Sched.Successor (s : Sched) (x : Nat) : Prop :=
  s.block x = .queued ∧ x ≠ s.current ∧ (s.tasks x).doomed = false ∧
    ((s.tasks x).state = .ready ∨
      (s.tasks x).state = .blocked ∧
        ((s.tasks x).wakeupTick ≠ 0 ∧ s.countTick.ticks ≥ (s.tasks x).wakeupTick ∨
          (s.tasks x).waiting = true ∧ (s.tasks x).pid = s.cur.parentPid))

/-- Another task of the queue is ready. -/
def Sched.OtherReady (s : Sched) : Prop :=
  ∃ x, s.block x = .queued ∧ x ≠ s.current ∧ (s.tasks x).state = .ready

/-- `current_task` has children, and none of them is a zombie. -/
def Sched.Waits (s : Sched) : Prop :=
  (∃ c, s.block c = .queued ∧ c ≠ s.current ∧ (s.tasks c).parentPid = s.cur.pid) ∧
    ∀ c, s.block c = .queued → c ≠ s.current → s.cur.zombieOf (s.tasks c).toTask = false

/-- SIGKILL hits `current_task` at the next tick. -/
def Sched.Doomed (s : Sched) : Prop := s.cur.doomed = true ∧ s.cur.state ≠ .zombie

/-- A task that gives the processor up leaves another one that can run. -/
def Handover (s : Sched) : Op → Prop
  | .sleep ms => ms ≠ 0 → s.OtherReady
  | .wait => s.Waits → s.OtherReady
  | .tick => s.Doomed → ∃ x, s.Successor x
  | _ => True

/-! ## the invariant -/

/-- The fields of a task agree: it has a wake-up time or waits for a child only while it
is blocked or after it has been killed, and a task that has exited is a zombie. -/
structure Pcb.Tidy (t : Pcb) : Prop where
  sleeping : t.wakeupTick ≠ 0 → (t.state = .blocked ∨ t.state = .zombie) ∧ t.waiting = false
  waiting : t.waiting = true → t.resume = .inWait ∧ (t.state = .blocked ∨ t.state = .zombie)
  exited : t.resume = .exited → t.state = .zombie

/-- All tasks are tidy, and `current_task` is the running one unless it has exited. -/
structure OneRuns (s : Sched) : Prop where
  tidy : ∀ b, s.block b ≠ .free → (s.tasks b).Tidy
  running : ∀ b, s.block b ≠ .free →
    ((s.tasks b).state = .running ↔ b = s.current ∧ (s.tasks b).resume ≠ .exited)
  created : ∀ b, s.block b = .created → (s.tasks b).state = .ready

section

variable {t : Pcb}

theorem Pcb.Tidy.awake (h : t.Tidy) (hr : t.runnable) :
    t.wakeupTick = 0 ∧ t.waiting = false ∧ t.resume ≠ .exited := by
  have hs : ¬(t.state = .blocked ∨ t.state = .zombie) := by
    rintro (hs | hs) <;> simp [Pcb.runnable, hs] at hr
  refine ⟨?_, ?_, fun he => hs (.inr (h.exited he))⟩
  · by_contra hw
    exact hs (h.sleeping hw).1
  · by_contra hw
    exact hs (h.waiting (by simpa using hw)).2

/-- `schedule` changes the state of a task that can run. -/
theorem Pcb.Tidy.setState (h : t.Tidy) (hr : t.runnable) (st : TaskState) :
    Pcb.Tidy { t with state := st } := by
  obtain ⟨hk, hw, he⟩ := h.awake hr
  exact ⟨by simp [hk], by simp [hw], by simp [he]⟩

theorem Pcb.Tidy.setNext (h : t.Tidy) (n : Nat) : Pcb.Tidy { t with next := n } :=
  ⟨h.sleeping, h.waiting, h.exited⟩

theorem Pcb.Tidy.wakeSleeper (h : t.Tidy) (now : Nat) : (t.wakeSleeper now).Tidy := by
  obtain heq | ⟨hb, hw, heq⟩ := t.wakeSleeper_cases now
  · rwa [heq]
  · have hwait : t.waiting = false := (h.sleeping hw).2
    rw [heq]
    exact ⟨by simp, by simp [hwait], fun he => by simp [h.exited he] at hb⟩

theorem Pcb.Tidy.ticked (h : t.Tidy) (now : Nat) : (t.ticked now).Tidy := by
  obtain ⟨-, -, heq⟩ | ⟨-, heq⟩ := t.ticked_cases now
  · rw [heq]
    have hw := h.wakeSleeper now
    exact ⟨fun hne => ⟨.inr rfl, (hw.sleeping hne).2⟩,
      fun hwait => ⟨(hw.waiting hwait).1, .inr rfl⟩, fun _ => rfl⟩
  · rw [heq]
    exact h.wakeSleeper now

/-- Waking a parent up. -/
theorem Pcb.Tidy.woken (h : t.Tidy) (hwait : t.waiting) : t.woken.Tidy := by
  refine ⟨fun hw => ?_, by simp [Pcb.woken], fun he => ?_⟩
  · simp [(h.sleeping hw).2] at hwait
  · have hin : t.resume = .inWait := (h.waiting hwait).1
    simp [Pcb.woken, hin] at he

theorem Pcb.ticked_running (now : Nat) (h : (t.ticked now).state = .running) :
    t.state = .running := by
  obtain ⟨-, -, heq⟩ | ⟨-, heq⟩ := t.ticked_cases now
  · rw [heq] at h
    simp [Pcb.killed] at h
  · rw [heq] at h
    obtain heq' | ⟨-, -, heq'⟩ := t.wakeSleeper_cases now
    · rwa [heq'] at h
    · simp [heq'] at h

end

section

variable {s s' s₁ : Sched} {l : List Nat} {op : Op} {b : Nat} {t : Pcb} {sched : Bool}

theorem OneRuns.cur_running (h : OneRuns s) (hl : Linked s l) (hr : s.cur.resume ≠ .exited) :
    s.cur.state = .running :=
  (h.running _ (by simp [hl.cur_queued])).mpr ⟨rfl, hr⟩

/-- The operations that are not interrupts are called by a running task. -/
theorem OneRuns.caller (h : OneRuns s) (hl : Linked s l) (hop : op.allowed s)
    (hcall : op ≠ .tick ∧ op ≠ .ctrlc) : s.cur.state = .running ∧
    s.cur.wakeupTick = 0 ∧ s.cur.waiting = false ∧ s.cur.resume ≠ .exited := by
  have hr : s.cur.resume ≠ .exited := fun he => by
    cases op <;> simp_all [Op.allowed]
  have hs := h.cur_running hl hr
  have htidy : s.cur.Tidy := h.tidy s.current (by simp [hl.cur_queued])
  exact ⟨hs, htidy.awake (by simp [Pcb.runnable, hs])⟩

/-- Before `schedule`, the tasks are tidy and no other task is running. -/
theorem TaskActs.tidy (ht : TaskActs s l op sched b t) (h : OneRuns s) (hl : Linked s l)
    (hop : op.allowed s) (hb : s.block b ≠ .free) :
    t.Tidy ∧ (t.state = .running → b = s.current) := by
  have hb' := h.tidy b hb
  have hrun := h.running b hb
  cases ht with
  | same => exact ⟨hb', fun hr => (hrun.mp hr).1⟩
  | add =>
    simp only [Op.allowed, Bool.and_eq_true, beq_iff_eq] at hop
    have hready := h.created b hop.2
    refine ⟨?_, by simp⟩
    rw [← hready]
    exact hb'
  | sleep =>
    obtain ⟨-, -, hw, hr⟩ := h.caller hl hop (by simp)
    exact ⟨⟨by simp [hw], by simp [hw], by simp [hr]⟩, fun _ => rfl⟩
  | leaveWait =>
    obtain ⟨-, hk, hw, -⟩ := h.caller hl hop (by simp)
    exact ⟨⟨by simp [hk], by simp [hw], by simp⟩, fun _ => rfl⟩
  | block =>
    obtain ⟨-, hk, -⟩ := h.caller hl hop (by simp)
    exact ⟨⟨by simp [hk], by simp, by simp⟩, fun _ => rfl⟩
  | exit =>
    obtain ⟨-, hk, hw, -⟩ := h.caller hl hop (by simp)
    refine ⟨⟨fun hne => absurd hk hne, fun hwait => ?_, fun _ => rfl⟩, fun _ => rfl⟩
    exact absurd (hw.symm.trans hwait) (by simp)
  | parent _ _ hwait => exact ⟨hb'.woken hwait, by simp [Pcb.woken]⟩
  | kill => exact ⟨⟨hb'.sleeping, hb'.waiting, hb'.exited⟩, fun hr => (hrun.mp hr).1⟩
  | ctrlc => exact ⟨⟨hb'.sleeping, hb'.waiting, hb'.exited⟩, fun hr => (hrun.mp hr).1⟩
  | tick hmem =>
    obtain ⟨hw, heq⟩ | ⟨-, heq⟩ := s.passed_cases hl.ring.nodup hmem
    · rw [heq]
      exact ⟨(hb'.ticked _).woken ((Pcb.ticked_frame _ _).2.2.2.1.trans hw.2.1),
        by simp [Pcb.woken]⟩
    · rw [heq]
      exact ⟨hb'.ticked _, fun hr => (hrun.mp (Pcb.ticked_running _ hr)).1⟩

theorem Sched.Doomed.ticked (hd : s.Doomed) (now : Nat) : (s.cur.ticked now).state = .zombie := by
  obtain ⟨-, -, heq⟩ | ⟨hor, -⟩ := s.cur.ticked_cases now
  · rw [heq]
    rfl
  · rcases hor with hor | hor
    · exact absurd (hd.1.symm.trans hor) (by simp)
    · exact absurd hor hd.2

/-- A task that is not yet in the queue stays ready. -/
theorem TaskActs.created (ht : TaskActs s l op sched b t) (h : OneRuns s) (hl : Linked s l)
    (hb : s.block b = .created) : t.state = .ready := by
  have hout : b ∉ s.current :: l := fun hmem => by simp [(hl.queued b).mp hmem] at hb
  have hready := h.created b hb
  cases ht with
  | same => exact hready
  | add => rfl
  | sleep => simp at hout
  | leaveWait => simp at hout
  | block => simp at hout
  | exit => simp at hout
  | parent hmem => simp [hmem] at hout
  | kill hmem => simp [hmem] at hout
  | ctrlc => exact hready
  | tick hmem => exact absurd hmem hout

/-- A successor can run after the loops of `sched_tick`. -/
theorem Sched.Successor.runnable (hl : Linked s l) {x : Nat} (hx : s.Successor x) (hd : s.Doomed) :
    ((s.passed l).tasks x).runnable := by
  obtain ⟨hq, -, hnot, hcan⟩ := hx
  have hticked : (s.tasks x).ticked s.countTick.ticks =
      (s.tasks x).wakeSleeper s.countTick.ticks := by
    obtain ⟨hd', -⟩ | ⟨-, heq⟩ := (s.tasks x).ticked_cases s.countTick.ticks
    · simp [hnot] at hd'
    · exact heq
  obtain ⟨-, heq⟩ | ⟨hasleep, heq⟩ := s.passed_cases hl.ring.nodup ((hl.queued x).mpr hq)
  · rw [heq]
    rfl
  rw [heq, hticked]
  obtain hready | ⟨hblocked, ⟨hne, hdue⟩ | ⟨hwait, hpid⟩⟩ := hcan
  · simp [Pcb.wakeSleeper, Pcb.runnable, hready]
  · simp [Pcb.wakeSleeper, Pcb.runnable, hblocked, hne, hdue]
  · -- it waits for `current_task`, which the first loop has killed
    obtain hsame | ⟨-, -, hready⟩ := (s.tasks x).wakeSleeper_cases s.countTick.ticks
    · have hstill : ((s.tasks x).ticked s.countTick.ticks).state = .blocked := by
        rw [hticked, hsame, hblocked]
      exact absurd ⟨hstill, hwait, s.current, mem_cons_self, hd.ticked _, hpid.symm⟩ hasleep
    · rw [hready]
      rfl

/-- The loops of `sched_tick` leave `current_task` as it is, unless SIGKILL hits it. -/
theorem OneRuns.passed_cur (h : OneRuns s) (hl : Linked s l) (hd : ¬s.Doomed) :
    (s.passed l).tasks s.current = s.cur := by
  have hblocked : s.cur.state ≠ .blocked := by
    by_cases he : s.cur.resume = .exited
    · rw [show s.cur.state = .zombie from (h.tidy _ (by simp [hl.cur_queued])).exited he]
      simp
    · rw [h.cur_running hl he]
      simp
  have hticked : s.cur.ticked s.countTick.ticks = s.cur := by
    obtain ⟨hdoom, hz, -⟩ | ⟨-, heq⟩ := s.cur.ticked_cases s.countTick.ticks
    · exact absurd ⟨hdoom, hz⟩ hd
    · rw [heq]
      simp [Pcb.wakeSleeper, hblocked]
  obtain ⟨hw, -⟩ | ⟨-, heq⟩ := s.passed_cases hl.ring.nodup mem_cons_self
  · exact absurd (hticked ▸ hw.1) hblocked
  · exact heq.trans hticked

/-- When `schedule` finds no other task, there was no successor. -/
theorem Acts.no_successor (hacts : Acts s l .tick true s₁) (hl : Linked s l) (hd : s.Doomed)
    (hnone : ∀ a ∈ l, (s₁.tasks a).runnable = false) (x : Nat) : ¬s.Successor x := by
  intro hx
  have hmem := (hl.queued x).mpr hx.1
  obtain ⟨t, ht, n, hn⟩ := hacts.tasks x (by simp [hx.1])
  have hnot := hnone x (by simpa [hx.2.1] using hmem)
  rw [hn] at hnot
  cases ht with
  | same hout => exact hout rfl hmem
  | tick => exact absurd ((hx.runnable hl hd).symm.trans hnot) (by simp)

/-- When `schedule` finds no other task, `current_task` has not given the processor up. -/
theorem Acts.stays (hacts : Acts s l op true s₁) (h : OneRuns s) (hl : Linked s l)
    (hok : Handover s op) (hnone : ∀ a ∈ l, (s₁.tasks a).runnable = false) :
    s₁.cur.state = .running ↔ s₁.cur.resume ≠ .exited := by
  have hready : op ≠ .tick → ¬s.OtherReady := by
    rintro hop ⟨x, hq, hne, hs⟩
    obtain ⟨t, ht, n, hn⟩ := hacts.tasks x (by simp [hq])
    have hnot := hnone x (by simpa [hne] using (hl.queued x).mpr hq)
    rw [hn] at hnot
    cases ht with
    | same => simp [Pcb.runnable, hs] at hnot
    | sleep => exact hne rfl
    | block => exact hne rfl
    | exit => exact hne rfl
    | parent => simp [Pcb.runnable, Pcb.woken] at hnot
    | tick => exact hop rfl
  have hcurrent := h.running s.current (by simp [hl.cur_queued])
  simp only [true_and] at hcurrent
  obtain ⟨t, ht, n, hn⟩ := hacts.tasks s.current (by simp [hl.cur_queued])
  unfold Sched.cur
  rw [hacts.current, hn]
  cases ht with
  | same => exact hcurrent
  | sleep hms => exact absurd (hok hms) (hready (by simp))
  | block hz hc hchild =>
    refine absurd (hok ⟨⟨_, (hl.queued _).mp (mem_cons_of_mem _ hc), ?_, hchild⟩, ?_⟩)
      (hready (by simp))
    · exact fun heq => hl.cur_not_mem (heq ▸ hc)
    · exact fun c hq hne => hz c (by simpa [hne] using (hl.queued c).mpr hq)
  | exit => simp [Pcb.exited]
  | parent hmem => exact absurd hmem hl.cur_not_mem
  | tick =>
    by_cases hd : s.Doomed
    · obtain ⟨x, hx⟩ := hok hd
      exact absurd hx (hacts.no_successor hl hd hnone x)
    · rw [h.passed_cur hl hd]
      exact hcurrent

/-- An operation that does not call `schedule`. -/
theorem Acts.running (hacts : Acts s l op false s₁) (h : OneRuns s) (hl : Linked s l)
    (hop : op.allowed s) (hb : s.block b ≠ .free) :
    (s₁.tasks b).state = .running ↔ b = s₁.current ∧ (s₁.tasks b).resume ≠ .exited := by
  obtain ⟨t, ht, n, hn⟩ := hacts.tasks b hb
  rw [hacts.current, hn]
  cases ht with
  | same => exact h.running b hb
  | add =>
    simp only [Op.allowed, Bool.and_eq_true, beq_iff_eq] at hop
    have hne : b ≠ s.current := fun heq => by simp [heq, hl.cur_queued] at hop
    simp [hne]
  | leaveWait => simp [(h.caller hl hop (by simp)).1]
  | kill => exact h.running b hb
  | ctrlc => exact h.running b hb

/-- **One step keeps the invariant.** -/
theorem StepTo.oneRuns (hs : StepTo s l op s') (hl : Linked s l) (hop : op.allowed s)
    (hok : Handover s op) (h : OneRuns s) : OneRuns s' := by
  have hnew : ∀ b, s.block b = .free → s'.block b ≠ .free → (s'.tasks b).Tidy ∧
      (s'.tasks b).state = .ready ∧ b ≠ s'.current := by
    intro b hb hb'
    obtain ⟨hcur, fds, n, heq⟩ := hs.born hl hb hb'
    refine ⟨?_, by rw [heq], fun hbc => by simp [hbc, hcur, hl.cur_queued] at hb⟩
    rw [heq]
    exact ⟨by simp, by simp, by simp⟩
  suffices hold : ∀ b, s.block b ≠ .free → (s'.tasks b).Tidy ∧
      ((s'.tasks b).state = .running ↔ b = s'.current ∧ (s'.tasks b).resume ≠ .exited) ∧
      (s.block b = .created → (s'.tasks b).state = .ready) by
    refine ⟨fun b hb' => ?_, fun b hb' => ?_, fun b hb' => ?_⟩ <;> by_cases hb : s.block b = .free
    · exact (hnew b hb hb').1
    · exact (hold b hb).1
    · simp [(hnew b hb hb').2]
    · exact (hold b hb).2.1
    · exact (hnew b hb (by simp [hb'])).2.1
    · exact (hold b hb).2.2 (hs.created hb hb')
  intro b hb
  obtain hacts | ⟨s₁, hacts, hsc⟩ := hs.acts hl
  · obtain ⟨t, ht, n, hn⟩ := hacts.tasks b hb
    refine ⟨?_, hacts.running h hl hop hb, fun hc => ?_⟩
    · rw [hn]
      exact (ht.tidy h hl hop hb).1.setNext n
    · rw [hn]
      exact ht.created h hl hc
  · obtain ⟨t, ht, n, hn⟩ := hacts.tasks b hb
    have htidy : (s₁.tasks b).Tidy := by
      rw [hn]
      exact (ht.tidy h hl hop hb).1.setNext n
    have hother : (s₁.tasks b).state = .running → b = s.current := by
      rw [hn]
      exact (ht.tidy h hl hop hb).2
    have hcreated : s.block b = .created → (s₁.tasks b).state = .ready := by
      rw [hn]
      exact ht.created h hl
    cases hsc with
    | stay hnone =>
      have hstays := hacts.stays h hl hok hnone
      refine ⟨htidy, ?_, hcreated⟩
      by_cases hbc : b = s'.current
      · subst hbc
        simp only [true_and]
        exact hstays
      · simp only [hbc, false_and, iff_false]
        exact fun hr => hbc ((hother hr).trans hacts.current.symm)
    | @switch x hx hrun =>
      have hne : x ≠ s₁.current := fun heq => hl.cur_not_mem (hacts.current ▸ heq ▸ hx)
      have hqueued : b = x ∨ b = s₁.current → s.block b = .queued := by
        rintro (rfl | rfl)
        · exact (hl.queued b).mp (mem_cons_of_mem _ hx)
        · exact hacts.current ▸ hl.cur_queued
      show _ ∧ (_ ↔ b = x ∧ _) ∧ _
      rw [s₁.switchTo_tasks hne b]
      split
      · rename_i hbx
        subst hbx
        exact ⟨htidy.setState hrun _, by simp [(htidy.awake hrun).2.2], by simp [hqueued]⟩
      · rename_i hbx
        split
        · rename_i hbc
          obtain ⟨rfl, hr⟩ := hbc
          have hrun' : s₁.cur.runnable := by simp [Pcb.runnable, hr]
          exact ⟨htidy.setState hrun' _, by simp [hbx], by simp⟩
        · rename_i hbc
          refine ⟨htidy, ?_, hcreated⟩
          simp only [hbx, false_and, iff_false]
          intro hr
          have hb1 : b = s₁.current := (hother hr).trans hacts.current.symm
          exact hbc ⟨hb1, by rw [← hr, hb1]; rfl⟩

end

theorem Booted.oneRuns {s : Sched} (h : Booted s) : OneRuns s := by
  have hboot : ∀ b, s.block b ≠ .free → b = bootTask := by
    intro b hb
    by_contra hne
    simp [h.block, hne] at hb
  refine ⟨fun b hb => ?_, fun b hb => ?_, fun b hb => ?_⟩
  · rw [hboot b hb, h.boot]
    exact ⟨by simp [bootPcb], by simp [bootPcb], by simp [bootPcb]⟩
  · rw [hboot b hb, h.boot, h.current]
    simp [bootPcb]
  · rw [h.block] at hb
    split at hb <;> simp at hb

theorem SchedRun.oneRuns {s₀ s : Sched} (hboot : Booted s₀) (hrun : SchedRun Handover s₀ s) :
    OneRuns s := by
  induction hrun with
  | nil => exact hboot.oneRuns
  | step fuel op hrun hop hok hstep ih =>
    obtain ⟨l, hl⟩ := hrun.linked hboot
    have hto := hl.step_some hop hstep
    exact hto.oneRuns hl hop hok ih

/-- **The running task.**  In every run whose steps hand the processor over only to
another task that can run, the task that executes outside the idle loop of `sched_exit`
is in the state `TASK_RUNNING`, and no other task of the queue is. -/
theorem one_running_task {s₀ s : Sched} (hboot : Booted s₀) (hrun : SchedRun Handover s₀ s) :
    (s.cur.resume ≠ .exited → s.cur.state = .running) ∧
    ∀ b, s.block b = .queued → b ≠ s.current → (s.tasks b).state ≠ .running := by
  obtain ⟨l, hl⟩ := hrun.linked hboot
  have h := hrun.oneRuns hboot
  exact ⟨h.cur_running hl, fun b hb hne hr => hne ((h.running b (by simp [hb])).mp hr).1⟩

/-- A sleep hands the processor over to a task that has been added. -/
theorem one_running_task_sleep : ∃ s, bootSched.exec 2 [.create 2, .add 2, .sleep 10] = some s ∧
    s.current = 2 ∧ s.cur.state = .running := by
  have hadd : SchedRun Handover bootSched ((bootSched.taskCreateUser 2).schedAdd 2) :=
    .step 2 (.add 2) (.step 2 (.create 2) .nil rfl trivial rfl) rfl trivial rfl
  refine ⟨_, rfl, rfl, (one_running_task booted_bootSched (.step 2 (.sleep 10) hadd rfl ?_ rfl)).1
    ?_⟩
  · exact fun _ => ⟨2, rfl, by decide, rfl⟩
  · decide

/-- The boot task sleeps for a second, alone in the queue: it goes on at once, in the
state `TASK_BLOCKED`. -/
theorem sleep_alone_not_running : Booted bootSched ∧ ∃ s, SchedRun (fun _ _ => True) bootSched s ∧
    bootSched.exec 1 [.sleep 1000] = some s ∧
    s.cur.resume = .outside ∧ s.cur.state = .blocked ∧
      ¬(s.cur.resume ≠ .exited → s.cur.state = .running) := by
  have hexec : bootSched.exec 1 [.sleep 1000] = some _ := rfl
  exact ⟨booted_bootSched, _, SchedRun.nil.exec hexec, hexec, rfl, rfl, by decide⟩

end AliOS
