import AliOS.Sched.Wakeup

/-!
# AliOS.Sched.Sleep

How long `sched_sleep` takes.  The call writes the wake-up time, blocks and calls
`schedule`, which comes back once the task has the processor again; `Sleeping` are the
steps in between.  The call lasts for the ticks it was asked for when its deadline can be
written down without a wrap, when nothing but the deadline can wake the task up, and when
another task can run at the time of the call.
-/

namespace AliOS

open Lib

/-! ## the call -/

/-- The ticks of 10 ms that `ms` milliseconds take, rounded up. -/
def sleepTicks (ms : UInt32) : Nat := (ms.toNat + 9) / 10

/-- The ticks an operation takes: `sched_tick` is the timer interrupt. -/
def Op.ticks : Op → Nat
  | .tick => 1
  | _ => 0

/-- The steps while the task at `a` is inside `sched_sleep`, from the state `s₁` on that
the call has led to: other tasks have the processor, and `a` is not killed.  The number
counts the ticks. -/
inductive Sleeping (a : Nat) (s₁ : Sched) : Sched → Nat → Prop where
  | start : Sleeping a s₁ s₁ 0
  | step {s s' : Sched} {n : Nat} (fuel : Nat) (op : Op) : Sleeping a s₁ s n → s.current ≠ a →
      op.allowed s = true → s.step fuel op = some s' → (s'.tasks a).state ≠ .zombie →
      Sleeping a s₁ s' (n + op.ticks)

/-- The call comes back only after the ticks it was asked for. -/
def SleepLasts (a : Nat) (s₁ : Sched) (ms : UInt32) : Prop :=
  ∀ s' n, Sleeping a s₁ s' n → s'.current = a → sleepTicks ms ≤ n

/-! ## the condition -/

/-- Another task of the queue can run. -/
def Sched.OtherRunnable (s : Sched) : Prop :=
  ∃ x, s.block x = .queued ∧ x ≠ s.current ∧ (s.tasks x).runnable = true

/-- What a call of `sched_sleep` needs in order to last. -/
structure CanSleep (s : Sched) (ms : UInt32) : Prop where
  /-- neither the rounding to ticks nor the deadline wraps, or the counter is about to -/
  deadline : ms.toNat + 9 < 2 ^ 32 ∧ s.ticks + sleepTicks ms < 2 ^ 32 ∨ s.ticks = 2 ^ 32 - 1
  other : s.OtherRunnable
  /-- no flag is left from an earlier `sched_wait` -/
  waiting : s.cur.waiting = false

section

variable {s s' s₁ : Sched} {l : List Nat} {op : Op} {a w n : Nat} {ms : UInt32}

/-! ## the counter -/

/-- A pass whose steps spare the counter spares it. -/
theorem foldl_ticks {g : Nat → Sched → Sched} (hg : ∀ a s, (g a s).ticks = s.ticks)
    (m : List Nat) (s : Sched) :
    (m.foldl (fun s' a => g a s') s).ticks = s.ticks := by
  induction m generalizing s with
  | nil => rfl
  | cons a m ih => exact (ih (g a s)).trans (hg a s)

theorem Sched.passed_ticks (s : Sched) (l : List Nat) :
    (s.passed l).ticks = (s.ticks + 1) % 2 ^ 32 :=
  (foldl_ticks (fun a s' => by unfold Sched.wakeParentIn; split <;> rfl) _ _).trans
    (foldl_ticks (fun a s' => by rw [s'.stores_tickVisit _ a]) _ _)

/-- Only `sched_tick` counts. -/
theorem StepTo.ticks (hs : StepTo s l op s') (h : s.ticks < 2 ^ 32) :
    s'.ticks = (s.ticks + op.ticks) % 2 ^ 32 := by
  have hsame : (s.ticks + 0) % 2 ^ 32 = s.ticks := Nat.mod_eq_of_lt h
  cases hs with
  | create | add | forkFailed | reap | noChild | kill | killNobody | setForeground =>
    exact hsame.symm
  | @fork a =>
    have hticks : ((s.taskCreateUser a).inheritFds s.cur.fdTable a).ticks = s.ticks := by
      rfl
    exact hticks.trans hsame.symm
  | yield hsc | sleepZero hsc | sleep _ hsc | block _ _ _ hsc =>
    exact hsc.frame.2.2.1.trans hsame.symm
  | @exit s₁ _ code _ hw hsc =>
    have hzombie : (s.becomeZombie code).ticks = s.ticks := by rw [s.stores_becomeZombie code]
    have hwake : s₁.ticks = (s.becomeZombie code).ticks := by cases hw <;> rfl
    exact (hsc.frame.2.2.1.trans (hwake.trans hzombie)).trans hsame.symm
  | ctrlc =>
    have hctrlc : s.schedCtrlc.ticks = s.ticks := by
      unfold Sched.schedCtrlc
      split
      · rfl
      · split <;> rfl
    exact hctrlc.trans hsame.symm
  | tick hsc => exact hsc.frame.2.2.1.trans (s.passed_ticks l)

/-! ## the deadline -/

theorem sleepTicks_pos (hms : ms ≠ 0) : 1 ≤ sleepTicks ms := by
  have hpos : ms.toNat ≠ 0 := fun h => hms (UInt32.toNat_inj.mp h)
  unfold sleepTicks
  omega

theorem CanSleep.ticks_lt (h : CanSleep s ms) : s.ticks < 2 ^ 32 := by
  obtain ⟨-, hd⟩ | hd := h.deadline <;> omega

/-- Before the ticks are over, the counter is below the deadline: no wrap lies between
them, or the counter has wrapped at the first tick and the deadline with it. -/
theorem CanSleep.before_deadline (h : CanSleep s ms) (hn : n ≠ 0) (hlt : n < sleepTicks ms) :
    (s.ticks + n) % 2 ^ 32 < s.wakeAt ms := by
  have hms : ms.toNat < 2 ^ 32 := ms.toNat_lt
  unfold sleepTicks at hlt
  unfold Sched.wakeAt
  dsimp only
  obtain ⟨hrounds, hd⟩ | hd := h.deadline
  · unfold sleepTicks at hd
    split <;> omega
  · have hnow : (s.ticks + n) % 2 ^ 32 = n - 1 := by omega
    by_cases hrounds : ms.toNat + 9 < 2 ^ 32
    · split <;> omega
    · have hnone : (ms.toNat + 9) % 2 ^ 32 / 10 = 0 := by omega
      split <;> omega

/-! ## the sleeper -/

/-- The task at `a` is in the queue, blocked until the time `w`, and waits for no child. -/
structure Dozing (s : Sched) (a w : Nat) : Prop where
  queued : s.block a = .queued
  state : (s.tasks a).state = .blocked
  wakeup : (s.tasks a).wakeupTick = w
  waiting : (s.tasks a).waiting = false
  away : s.current ≠ a

/-- The call itself, when another task can run. -/
theorem StepTo.dozing (hs : StepTo s l (.sleep ms) s') (hl : Linked s l) (hms : ms ≠ 0)
    (hother : s.OtherRunnable)
    (hwait : s.cur.waiting = false) : Dozing s' s.current (s.wakeAt ms) := by
  cases hs with
  | sleepZero => exact absurd rfl hms
  | sleep _ hsc =>
    have hstore : s.Stores s.current { s.cur with wakeupTick := s.wakeAt ms, state := .blocked }
        (s.sleepUntil (s.wakeAt ms)) := s.stores_modify _ _
    have hblock := hsc.frame.1
    cases hsc with
    | stay hnone =>
      obtain ⟨x, hx, hne, hrun⟩ := hother
      have hmem : x ∈ l := ((List.mem_cons.mp ((hl.queued x).mpr hx)).resolve_left hne)
      have hblocked := hnone x hmem
      rw [hstore.of_ne hne, hrun] at hblocked
      cases hblocked
    | @switch x hx =>
      have hne : x ≠ s.current := fun heq => hl.cur_not_mem (heq ▸ hx)
      have htask : ((s.sleepUntil (s.wakeAt ms)).switchTo x).tasks s.current =
          { s.cur with wakeupTick := s.wakeAt ms, state := .blocked } := by
        have hblocked : (s.sleepUntil (s.wakeAt ms)).cur.state = .blocked :=
          congrArg (fun t : Pcb => t.state) hstore.self
        rw [(s.sleepUntil (s.wakeAt ms)).switchTo_tasks hne, if_neg (Ne.symm hne), hblocked,
          if_neg (by simp)]
        exact hstore.self
      exact ⟨by rw [hblock]; exact hl.cur_queued, by rw [htask], by rw [htask],
        by rw [htask]; exact hwait, hne⟩

/-- What a step does to the sleeper before its time: it may get signals. -/
theorem TaskActs.dozing {sched : Bool} {t : Pcb} (ht : TaskActs s l op sched a t) (hl : Linked s l)
    (hd : Dozing s a w) (hadd : op ≠ .add a) (htick : op = .tick → s.countTick.ticks < w) :
    t.state = .zombie ∨ t.state = .blocked ∧ t.wakeupTick = w ∧ t.waiting = false := by
  have hself : ∀ {p : Prop}, a = s.current → p := fun heq => absurd heq.symm hd.away
  cases ht with
  | same => exact .inr ⟨hd.state, hd.wakeup, hd.waiting⟩
  | add => exact absurd rfl hadd
  | sleep | leaveWait | block | exit => exact hself rfl
  | parent _ _ hwait => simp [hd.waiting] at hwait
  | kill | ctrlc => exact .inr ⟨hd.state, hd.wakeup, hd.waiting⟩
  | tick hmem =>
    obtain ⟨hwoken, -⟩ | ⟨-, heq⟩ := s.passed_cases hl.ring.nodup hmem
    · have hwait := hwoken.2.1
      simp [hd.waiting] at hwait
    · rw [heq]
      obtain ⟨-, -, heq'⟩ | ⟨-, heq'⟩ := (s.tasks a).ticked_cases s.countTick.ticks
      · exact .inl (by rw [heq']; rfl)
      · have hasleep : (s.tasks a).wakeSleeper s.countTick.ticks = s.tasks a := by
          unfold Pcb.wakeSleeper
          rw [if_neg]
          rintro ⟨-, -, hge⟩
          have := htick rfl
          rw [hd.wakeup] at hge
          omega
        rw [heq', hasleep]
        exact .inr ⟨hd.state, hd.wakeup, hd.waiting⟩

/-- A step before the deadline leaves the task asleep, unless it kills it. -/
theorem Dozing.step (hd : Dozing s a w) (hs : StepTo s l op s') (hl : Linked s l)
    (htick : op = .tick → s.countTick.ticks < w) (halive : (s'.tasks a).state ≠ .zombie) :
    Dozing s' a w := by
  have hadd : op ≠ .add a := by
    rintro rfl
    cases hs with
    | add hcreated => simp [hd.queued] at hcreated
  have hqueued : s'.block a = .queued := by
    by_contra hleft
    have hzombie := (hs.left hl hd.queued hleft).2.2.1
    simp [hd.state] at hzombie
  obtain ⟨sched, t, nx, st, hacts, htask, hst⟩ :=
    hs.task hl (show s.block a ≠ .free by simp [hd.queued])
  rw [htask] at halive
  obtain hzombie | ⟨hstate, hwakeup, hwaiting⟩ := hacts.dozing hl hd hadd htick
  · obtain ⟨rfl, -⟩ | ⟨hrun, -⟩ | ⟨-, hrun, -⟩ := hst
    · exact absurd hzombie halive
    · simp [hzombie] at hrun
    · simp [Pcb.runnable, hzombie] at hrun
  · obtain ⟨rfl, hcur⟩ | ⟨hrun, -⟩ | ⟨-, hrun, -⟩ := hst
    · refine ⟨hqueued, by rw [htask]; exact hstate, by rw [htask]; exact hwakeup,
        by rw [htask]; exact hwaiting, fun heq => hd.away (hcur heq.symm).symm⟩
    · simp [hstate] at hrun
    · simp [Pcb.runnable, hstate] at hrun

end

/-! ## the whole sleep -/

section

variable {s₀ s s' s₁ : Sched} {a n fuel : Nat} {ms : UInt32}

theorem Sleeping.linked (h : Sleeping a s₁ s' n) (h1 : ∃ l, Linked s₁ l) : ∃ l, Linked s' l := by
  induction h with
  | start => exact h1
  | step fuel op _ _ hop hstep _ ih =>
    obtain ⟨l, hl⟩ := ih
    have hto := hl.step_some hop hstep
    exact hto.linked hl

/-- Until the ticks are over, the task sleeps. -/
theorem Sleeping.dozing (h : Sleeping a s₁ s' n) (hlinked : ∃ l, Linked s₁ l) (hcan : CanSleep s ms)
    (hticks : s₁.ticks = s.ticks) (hstart : Dozing s₁ a (s.wakeAt ms)) (hn : n < sleepTicks ms) :
    Dozing s' a (s.wakeAt ms) ∧ s'.ticks = (s.ticks + n) % 2 ^ 32 := by
  induction h with
  | start => exact ⟨hstart, hticks.trans (Nat.mod_eq_of_lt hcan.ticks_lt).symm⟩
  | @step s2 s' n fuel op hsleep _ hop hstep halive ih =>
    obtain ⟨hd, hcount⟩ := ih (by omega)
    obtain ⟨l, hl⟩ := hsleep.linked hlinked
    have hto := hl.step_some hop hstep
    have hnow : s2.ticks < 2 ^ 32 := by
      rw [hcount]
      exact Nat.mod_lt _ (by decide)
    refine ⟨hd.step hto hl ?_ halive, ?_⟩
    · rintro rfl
      have hbefore := hcan.before_deadline (Nat.succ_ne_zero n) hn
      show (s2.ticks + 1) % 2 ^ 32 < _
      rwa [hcount, Nat.mod_add_mod]
    · rw [hto.ticks hnow, hcount, Nat.mod_add_mod, Nat.add_assoc]

/-- **How long `sched_sleep` takes**: a call that can last comes back only after its ticks,
whatever the other tasks do; a call that leaves nobody to run comes back at once. -/
theorem sched_sleep_lasts (hboot : Booted s₀) (hrun : SchedRun (fun _ _ => True) s₀ s)
    (hop : (Op.sleep ms).allowed s = true) (hms : ms ≠ 0) (hcall : s.schedSleep fuel ms = some s₁) :
    (CanSleep s ms → SleepLasts s.current s₁ ms) ∧
      (¬s.OtherRunnable → ¬SleepLasts s.current s₁ ms) := by
  obtain ⟨l, hl⟩ := hrun.linked hboot
  have hto := hl.step_some hop hcall
  refine ⟨fun hcan s' n hsleep hback => ?_, fun halone hlasts => ?_⟩
  · by_contra hearly
    have hticks : s₁.ticks = s.ticks :=
      (hto.ticks hcan.ticks_lt).trans (Nat.mod_eq_of_lt hcan.ticks_lt)
    have hd :=
      (hsleep.dozing (hto.linked hl) hcan hticks (hto.dozing hl hms hcan.other hcan.waiting)
      (Nat.lt_of_not_le hearly)).1
    exact hd.away hback
  · cases hto with
    | sleepZero => exact absurd rfl hms
    | sleep _ hsc =>
      cases hsc with
      | stay =>
        have hpos := sleepTicks_pos hms
        have hzero := hlasts _ 0 .start rfl
        omega
      | @switch x hx hrunnable =>
        have hne : x ≠ s.current := fun heq => hl.cur_not_mem (heq ▸ hx)
        have hqueued := (hl.queued x).mp (List.mem_cons_of_mem _ hx)
        have hsame : (s.sleepUntil (s.wakeAt ms)).tasks x = s.tasks x :=
          Function.update_of_ne hne _ _
        exact absurd ⟨x, hqueued, hne, hsame ▸ hrunnable⟩ halone

/-- The boot task has added a second task. -/
def twoTasks : Sched := (bootSched.taskCreateUser 2).schedAdd 2

/-- It then sleeps for 10 ms, and the first tick brings it back. -/
theorem sched_sleep_lasts_tick : bootSched.exec 2 [.create 2, .add 2] = some twoTasks ∧ ∃ s₁ s₂,
    twoTasks.schedSleep 2 10 = some s₁ ∧ s₁.step 2 .tick = some s₂ ∧ s₂.current = bootTask ∧
    CanSleep twoTasks 10 ∧ SleepLasts bootTask s₁ 10 := by
  have hexec : bootSched.exec 2 [.create 2, .add 2] = some twoTasks := rfl
  have hcall : twoTasks.schedSleep 2 10 = some _ := rfl
  have hcan : CanSleep twoTasks 10 :=
    ⟨.inl ⟨by decide, by decide⟩, ⟨2, by decide, by decide, by decide⟩, by decide⟩
  exact ⟨hexec, _, _, hcall, rfl, rfl, hcan,
    (sched_sleep_lasts booted_bootSched (SchedRun.nil.exec hexec) rfl (by decide) hcall).1 hcan⟩

end

/-- The boot task sleeps for a second, alone in the queue: the call comes back before any
tick. -/
theorem sched_sleep_returns_at_once :
    Booted bootSched ∧ ∃ s₁, bootSched.schedSleep 1 1000 = some s₁ ∧
    Sleeping bootTask s₁ s₁ 0 ∧ s₁.current = bootTask ∧ ¬sleepTicks 1000 ≤ 0 :=
  ⟨booted_bootSched, _, rfl, .start, rfl, by decide⟩

end AliOS
