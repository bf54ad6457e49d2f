import AliOS.Sched.Steps

/-!
# AliOS.Sched.Cycle

The run queue is a ring in every run: each step keeps it, whatever the place where a
task is put in or taken out, and so every loop over it ends.
-/

namespace AliOS

open Lib Function List

variable {a b : Nat} {op : Op} {s s' : Sched} {l : List Nat}

/-! ## the ring is kept -/

section

variable {s s' : Sched} {l : List Nat}

/-- The memory of a task that is not queued may be written. -/
theorem Linked.of_outside (h : Linked s l) (hcur : s'.current = s.current)
    (htasks : ∀ a, s.block a = .queued → s'.tasks a = s.tasks a)
    (hblock : ∀ a, s'.block a = .queued ↔ s.block a = .queued) : Linked s' l := by
  refine ⟨?_, fun a => ?_⟩
  · rw [hcur]
    refine h.ring.congr fun a ha => ?_
    unfold Sched.next
    rw [htasks a ((h.queued a).mp ha)]
  · rw [hcur, hblock]
    exact h.queued a

theorem Linked.taskCreateUser (h : Linked s l) (ha : s.block a ≠ .queued) :
    Linked (s.taskCreateUser a) l := by
  refine h.of_outside rfl (fun b hb => ?_) fun b => ?_
  · have hne : b ≠ a := fun heq => ha (heq ▸ hb)
    exact update_of_ne hne _ _
  unfold Sched.taskCreateUser
  by_cases hb : b = a
  · subst hb
    simp [ha]
  · simp [hb]

theorem Linked.schedAdd (h : Linked s l) (ha : s.block a ≠ .queued) :
    Linked (s.schedAdd a) (a :: l) := by
  have hnot : a ∉ s.current :: l := fun hmem => ha ((h.queued a).mp hmem)
  have hne : a ≠ s.current := fun heq => hnot (heq ▸ mem_cons_self)
  refine ⟨?_, fun b => ?_⟩
  · refine h.ring.insert hnot ?_ ?_ fun b hb => ?_
    · show ((s.schedAdd a).tasks s.current).next = a
      simp [Sched.schedAdd, Sched.modify]
    · show ((s.schedAdd a).tasks a).next = s.next s.current
      simp [Sched.schedAdd, Sched.modify, hne]
    · have hba : b ≠ a := fun heq => hnot (heq ▸ mem_cons_of_mem _ hb)
      have hbc : b ≠ s.current := fun heq => h.cur_not_mem (heq ▸ hb)
      show ((s.schedAdd a).tasks b).next = (s.tasks b).next
      simp [Sched.schedAdd, Sched.modify, hba, hbc]
  · show b ∈ s.current :: a :: l ↔ update s.block a .queued b = .queued
    by_cases hb : b = a
    · simp [hb]
    · rw [update_of_ne hb, ← h.queued b]
      simp [hb]

theorem Linked.reap {l₁ l₂ : List Nat} {t : Nat} (h : Linked s (l₁ ++ t :: l₂)) :
    Linked (s.reap ((s.current :: l₁).getLast (by simp)) t) (l₁ ++ l₂) := by
  generalize hprev : (s.current :: l₁).getLast (by simp) = prev
  refine ⟨?_, fun a => ?_⟩
  · refine h.ring.remove ?_ fun a ha => ?_
    · rw [hprev]
      show ((s.reap prev t).tasks prev).next = s.next t
      simp [Sched.reap, Sched.modify]
    · rw [hprev] at ha
      show ((s.reap prev t).tasks a).next = (s.tasks a).next
      simp [Sched.reap, Sched.modify, ha]
  · have hnodup := h.ring.nodup
    have hq := h.queued a
    show a ∈ s.current :: (l₁ ++ l₂) ↔ update s.block t .free a = .queued
    by_cases hat : a = t
    · subst hat
      simp only [update_self, mem_cons, mem_append, reduceCtorEq, iff_false]
      grind
    · rw [update_of_ne hat, ← hq]
      simp [hat]

theorem Linked.sysFork (h : Linked s l) (ha : s.block a ≠ .queued) :
    Linked (s.sysFork (some a)).2 (a :: l) := by
  have hk := ((s.taskCreateUser a).stores_inheritFds s.cur.fdTable a).keeps rfl
  refine ((h.taskCreateUser ha).keeps hk).schedAdd ?_
  rw [hk.block]
  simp [Sched.taskCreateUser]

/-- **One step keeps the ring.** -/
theorem StepTo.linked (hs : StepTo s l op s') (h : Linked s l) : ∃ l', Linked s' l' := by
  have hsched : ∀ {s₁ s2 : Sched}, KeepsLinks s s₁ → Scheduled s₁ l s2 → ∃ l', Linked s2 l' :=
    fun hk hsc => hsc.linked (h.keeps hk)
  cases hs with
  | create ha => exact ⟨l, h.taskCreateUser (by simp [ha])⟩
  | add ha => exact ⟨_, h.schedAdd (by simp [ha])⟩
  | forkFailed => exact ⟨l, h⟩
  | fork ha => exact ⟨_, h.sysFork (by simp [ha])⟩
  | yield hsc => exact hsched (.refl s) hsc
  | sleepZero hsc => exact hsched (.refl s) hsc
  | sleep _ hsc => exact hsched ((s.stores_modify _ _).keeps rfl) hsc
  | reap hl =>
    subst hl
    exact ⟨_, h.reap.keeps ((Sched.stores_modify _ _ _).keeps rfl)⟩
  | noChild => exact ⟨l, h.keeps ((s.stores_modify _ _).keeps rfl)⟩
  | block _ _ _ hsc => exact hsched ((s.stores_modify _ _).keeps rfl) hsc
  | @exit s₁ _ code _ hw hsc =>
    have hk : KeepsLinks s (s.becomeZombie code) := (s.stores_becomeZombie code).keeps rfl
    exact hsched (hk.trans hw.keeps) hsc
  | kill => exact ⟨l, h.keeps ((s.stores_modify _ _).keeps rfl)⟩
  | killNobody => exact ⟨l, h⟩
  | setForeground => exact ⟨l, ⟨h.ring, h.queued⟩⟩
  | ctrlc =>
    refine ⟨l, ?_⟩
    unfold Sched.schedCtrlc
    split
    · exact h
    · split
      · exact h.keeps ((s.stores_modify _ _).keeps rfl)
      · exact h
  | tick hsc => exact hsched (s.keeps_passed l) hsc

end

/-- From `sched_init` on the run queue is a ring. -/
theorem Booted.linked (h : Booted s) : Linked s [] where
  ring := ⟨by simp [Leads, Sched.next, h.current, h.boot, bootPcb], by simp⟩
  queued := fun a => by
    rw [h.current, h.block]
    simp

/-- **Every run keeps the ring.** -/
theorem SchedRun.linked {ok : Sched → Op → Prop} {s₀ : Sched} (hboot : Booted s₀)
    (hrun : SchedRun ok s₀ s) :
    ∃ l, Linked s l := by
  induction hrun with
  | nil => exact ⟨[], hboot.linked⟩
  | step fuel op _ hop _ hstep ih =>
    obtain ⟨l, hl⟩ := ih
    have hto := hl.step_some hop hstep
    exact hto.linked hl

/-! ## who enters and leaves -/

theorem Sched.sysFork_block (s : Sched) (a : Nat) :
    (s.sysFork (some a)).2.block = update s.block a .queued := by
  have hk := ((s.taskCreateUser a).stores_inheritFds s.cur.fdTable a).keeps rfl
  show update ((s.taskCreateUser a).inheritFds s.cur.fdTable a).block a .queued = _
  rw [hk.block]
  simp [Sched.taskCreateUser]

section

variable (hs : StepTo s l op s')

include hs

/-- What a step does to the memory of tasks: nothing, or it takes memory for a new task,
puts a task into the queue, or reaps a zombie child. -/
theorem StepTo.memory :
    s'.block = s.block ∧ (∀ a, op ≠ .create a ∧ op ≠ .add a ∧ op ≠ .fork (some a)) ∨
    (∃ a, op = .create a ∧ s.block a = .free ∧ s'.block = update s.block a .created) ∨
    (∃ a, (op = .add a ∨ op = .fork (some a)) ∧ s.block a ≠ .queued ∧
      s'.block = update s.block a .queued) ∨
    ∃ t ∈ l, op = .wait ∧ s.cur.zombieOf (s.tasks t).toTask ∧
      s'.block = update s.block t .free := by
  have hsched : ∀ {s₁ s2 : Sched}, KeepsLinks s s₁ → Scheduled s₁ l s2 → s2.block = s.block :=
    fun hk hsc => hsc.frame.1.trans hk.block
  cases hs with
  | create ha => exact .inr (.inl ⟨_, rfl, ha, rfl⟩)
  | add ha => exact .inr (.inr (.inl ⟨_, .inl rfl, by simp [ha], rfl⟩))
  | forkFailed => simp
  | fork ha => exact .inr (.inr (.inl ⟨_, .inr rfl, by simp [ha], s.sysFork_block _⟩))
  | yield hsc => exact .inl ⟨hsched (.refl s) hsc, by simp⟩
  | sleepZero hsc => exact .inl ⟨hsched (.refl s) hsc, by simp⟩
  | sleep _ hsc => exact .inl ⟨hsched ((s.stores_modify _ _).keeps rfl) hsc, by simp⟩
  | @reap l₁ l₂ t hl hz => exact .inr (.inr (.inr ⟨t, by simp [hl], rfl, hz, rfl⟩))
  | noChild => exact .inl ⟨rfl, by simp⟩
  | block _ _ _ hsc => exact .inl ⟨hsched ((s.stores_modify _ _).keeps rfl) hsc, by simp⟩
  | @exit s₁ _ code _ hw hsc =>
    have hk : KeepsLinks s (s.becomeZombie code) := (s.stores_becomeZombie code).keeps rfl
    exact .inl ⟨hsched (hk.trans hw.keeps) hsc, by simp⟩
  | kill => exact .inl ⟨rfl, by simp⟩
  | killNobody => simp
  | setForeground => simp
  | ctrlc =>
    refine .inl ⟨?_, by simp⟩
    unfold Sched.schedCtrlc
    split
    · rfl
    · split <;> rfl
  | tick hsc => exact .inl ⟨hsched (s.keeps_passed l) hsc, by simp⟩

/-- Only `sched_set_foreground` writes `foreground_task`. -/
theorem StepTo.foreground (hop : ∀ t, op ≠ .setForeground t) :
    s'.foreground = s.foreground := by
  have hsched : ∀ {s₁ s2 : Sched}, KeepsLinks s s₁ → Scheduled s₁ l s2 →
      s2.foreground = s.foreground :=
    fun hk hsc => hsc.frame.2.2.2.2.trans hk.foreground
  cases hs with
  | create | add | forkFailed | reap | noChild | kill | killNobody => rfl
  | @fork a => exact (((s.taskCreateUser a).stores_inheritFds s.cur.fdTable a).keeps rfl).foreground
  | yield hsc | sleepZero hsc => exact hsched (.refl s) hsc
  | sleep _ hsc | block _ _ _ hsc => exact hsched ((s.stores_modify _ _).keeps rfl) hsc
  | @exit s₁ _ code _ hw hsc =>
    have hk : KeepsLinks s (s.becomeZombie code) := (s.stores_becomeZombie code).keeps rfl
    exact hsched (hk.trans hw.keeps) hsc
  | setForeground => exact absurd rfl (hop _)
  | ctrlc =>
    unfold Sched.schedCtrlc
    split
    · rfl
    · split <;> rfl
  | tick hsc => exact hsched (s.keeps_passed l) hsc

/-- A task enters the queue when it is added. -/
theorem StepTo.enters (hb : s.block b ≠ .queued) :
    s'.block b = .queued ↔ op = .add b ∨ op = .fork (some b) := by
  obtain ⟨heq, hop⟩ | ⟨a, rfl, -, heq⟩ | ⟨a, hop, -, heq⟩ | ⟨t, -, rfl, -, heq⟩ := hs.memory
  · simp [heq, hb, hop b]
  · rw [heq, update_apply]
    split <;> simp [hb]
  · rw [heq, update_apply]
    split
    · subst b
      simp [hop]
    · rcases hop with rfl | rfl <;> simp [hb] <;> grind
  · rw [heq, update_apply]
    split <;> simp [hb]

/-- It enters as a task that is ready. -/
theorem StepTo.entered (hl : Linked s l) (hb : s.block b ≠ .queued)
    (hb' : s'.block b = .queued) : (s'.tasks b).state = .ready := by
  have hcur : b ≠ s.current := fun heq => hb (heq ▸ hl.cur_queued)
  rcases (hs.enters hb).mp hb' with rfl | rfl
  · cases hs
    rw [s.schedAdd_self hcur]
  · cases hs
    rw [s.sysFork_self hcur]

/-- Free memory is taken for a new task only. -/
theorem StepTo.newborn (hb : s.block b = .free) (hb' : s'.block b ≠ .free) :
    op = .create b ∨ op = .fork (some b) := by
  have hnew : ∀ {a : Nat} {v : Block}, s'.block = update s.block a v → b = a := by
    intro a v heq
    by_contra hne
    rw [heq, update_of_ne hne] at hb'
    exact hb' hb
  obtain ⟨heq, -⟩ | ⟨a, rfl, -, heq⟩ | ⟨a, rfl | rfl, -, heq⟩ | ⟨t, -, rfl, -, heq⟩ := hs.memory
  · exact absurd (heq ▸ hb) hb'
  · exact .inl (by rw [hnew heq])
  · obtain rfl := hnew heq
    cases hs with
    | add ha => simp [hb] at ha
  · exact .inr (by rw [hnew heq])
  · obtain rfl := hnew heq
    simp [heq] at hb'

/-- A task whose memory was free has just been created. -/
theorem StepTo.born (hl : Linked s l) (hb : s.block b = .free)
    (hb' : s'.block b ≠ .free) : s'.current = s.current ∧ ∃ fds n,
    s'.tasks b =
      { pid := s.nextPid, state := .ready, parentPid := s.cur.pid, exitCode := 0, waiting := false,
        fdTable := fds, next := n, wakeupTick := 0, pendingSigs := 0, cwd := rootPath,
        resume := .outside } := by
  have hcur : b ≠ s.current := fun heq => by simp [heq, hl.cur_queued] at hb
  obtain rfl | rfl := hs.newborn hb hb'
  · cases hs
    exact ⟨rfl, _, _, s.taskCreateUser_self⟩
  · cases hs
    exact ⟨rfl, _, _, s.sysFork_self hcur⟩

theorem StepTo.created (hb : s.block b ≠ .free) (hb' : s'.block b = .created) :
    s.block b = .created := by
  obtain ⟨heq, -⟩ | ⟨a, -, ha, heq⟩ | ⟨a, -, -, heq⟩ | ⟨t, -, -, -, heq⟩ := hs.memory
  · exact heq ▸ hb'
  all_goals
    rw [heq, update_apply] at hb'
    split at hb'
    · grind
    · exact hb'

/-- A task leaves the queue as a zombie, reaped by its parent. -/
theorem StepTo.left (hl : Linked s l) (hb : s.block b = .queued)
    (hb' : s'.block b ≠ .queued) :
    op = .wait ∧ b ≠ s.current ∧ (s.tasks b).state = .zombie ∧
      (s.tasks b).parentPid = s.cur.pid := by
  obtain ⟨heq, -⟩ | ⟨a, -, ha, heq⟩ | ⟨a, -, -, heq⟩ | ⟨t, ht, hop, hz, heq⟩ := hs.memory
  · exact absurd (heq ▸ hb) hb'
  · rw [heq, update_apply] at hb'
    split at hb'
    · subst b
      simp [ha] at hb
    · exact absurd hb hb'
  · rw [heq, update_apply] at hb'
    split at hb'
    · simp at hb'
    · exact absurd hb hb'
  · rw [heq, update_apply] at hb'
    split at hb'
    · subst b
      simp only [Task.zombieOf, Bool.and_eq_true, beq_iff_eq] at hz
      exact ⟨hop, fun heq => hl.cur_not_mem (heq ▸ ht), hz.1, hz.2⟩
    · exact absurd hb hb'

end

/-! ## the boot task -/

/-- The task is no zombie and no SIGKILL is pending. -/
def Pcb.spared (t : Pcb) : Prop := t.state ≠ .zombie ∧ t.doomed = false

/-- The operation sends signals. -/
def Op.signals : Op → Bool
  | .kill _ _ | .ctrlc => true
  | _ => false

section

variable {s s' : Sched} {l : List Nat} {b : Nat}

theorem Scheduled.spared (hs : Scheduled s l s') (hcur : s.current ∉ l) (h : (s.tasks b).spared) :
    (s'.tasks b).spared := by
  have hdoomed : (s'.tasks b).doomed = (s.tasks b).doomed := by rw [hs.task hcur b]; rfl
  refine ⟨fun hz => ?_, hdoomed.trans h.2⟩
  obtain ⟨heq, -⟩ | ⟨-, -, heq, -⟩ | ⟨-, -, -, heq⟩ := hs.state hcur b
  · exact h.1 (heq ▸ hz)
  · simp [heq] at hz
  · simp [heq] at hz

theorem Pcb.spared.ticked {t : Pcb} (h : t.spared) (now : Nat) : (t.ticked now).spared := by
  unfold Pcb.ticked
  rw [h.2]
  obtain heq | ⟨-, -, heq⟩ := t.wakeSleeper_cases now
  · simpa [heq] using h
  · simpa [heq, Pcb.spared, Pcb.doomed] using h.2

/-- A task that neither exits nor gets a signal stays alive. -/
theorem StepTo.spared (hs : StepTo s l op s') (hl : Linked s l) (hb : s.block b = .queued)
    (hexit : ∀ code, op = .exit code → b ≠ s.current) (hsig : op.signals = false)
    (h : (s.tasks b).spared) :
    (s'.tasks b).spared := by
  have hacts : ∀ {sched : Bool} {s₁ : Sched}, Acts s l op sched s₁ → (s₁.tasks b).spared := by
    intro sched s₁ hacts
    obtain ⟨t, ht, n, hn⟩ := hacts.tasks b (by simp [hb])
    rw [hn]
    cases ht with
    | same => exact h
    | add => exact ⟨by simp, h.2⟩
    | sleep => exact ⟨by simp, h.2⟩
    | leaveWait => exact h
    | block => exact ⟨by simp, h.2⟩
    | exit => exact absurd rfl (hexit _ rfl)
    | parent => exact ⟨by simp [Pcb.woken], h.2⟩
    | kill => simp [Op.signals] at hsig
    | ctrlc => simp [Op.signals] at hsig
    | tick hmem =>
      have hticked := h.ticked s.countTick.ticks
      obtain ⟨-, heq⟩ | ⟨-, heq⟩ := s.passed_cases hl.ring.nodup hmem
      · rw [heq]
        exact ⟨by simp [Pcb.woken], hticked.2⟩
      · rwa [heq]
  obtain hact | ⟨s₁, hact, hsc⟩ := hs.acts hl
  · exact hacts hact
  · exact hsc.spared (hact.current ▸ hl.cur_not_mem) (hacts hact)

end

/-- Without signals the boot task is in the queue for ever. -/
theorem SchedRun.boot_queued {ok : Sched → Op → Prop} {s₀ : Sched} (hboot : Booted s₀)
    (hok : ∀ s op, ok s op → op.signals = false) (hrun : SchedRun ok s₀ s) :
    s.block bootTask = .queued ∧ (s.tasks bootTask).spared := by
  induction hrun with
  | nil =>
    rw [hboot.block, hboot.boot]
    exact ⟨rfl, by simp [bootPcb], rfl⟩
  | @step s s' fuel op hrun hop hokop hstep ih =>
    obtain ⟨l, hl⟩ := hrun.linked hboot
    have hto := hl.step_some hop hstep
    refine ⟨?_, hto.spared hl ih.1 (fun code hexit heq => ?_) (hok _ _ hokop) ih.2⟩
    · by_contra hleft
      exact ih.2.1 (hto.left hl ih.1 hleft).2.2.1
    · subst hexit
      simp [Op.allowed, ← heq] at hop

/-- **Run-queue integrity.**  In every state of every run the links lead from
`current_task` once around a ring, of the tasks that have been added and not reaped;
the boot task is one of them unless it can be killed.  Every operation comes to an end;
a task enters the ring when it is added, and leaves it as a zombie in `sched_wait` of
its parent. -/
theorem run_queue_integrity {ok : Sched → Op → Prop} {s₀ s : Sched} (hboot : Booted s₀)
    (hrun : SchedRun ok s₀ s) :
    (∃ l, Ring s.next s.current l ∧ ∀ a, a ∈ s.current :: l ↔ s.block a = .queued) ∧
    ((∀ s op, ok s op → op.signals = false) → s.block bootTask = .queued) ∧
    ∀ op, op.allowed s = true → ∃ n s', (∀ fuel, n ≤ fuel → s.step fuel op = some s') ∧
      (∀ a, s.block a ≠ .queued → (s'.block a = .queued ↔ op = .add a ∨ op = .fork (some a))) ∧
      ∀ a, s.block a = .queued → s'.block a ≠ .queued →
        op = .wait ∧ a ≠ s.current ∧ (s.tasks a).state = .zombie ∧
          (s.tasks a).parentPid = s.cur.pid := by
  obtain ⟨l, hl⟩ := hrun.linked hboot
  refine ⟨⟨l, hl.ring, hl.queued⟩, fun hok => (hrun.boot_queued hboot hok).1, fun op hop => ?_⟩
  obtain ⟨v, hv, hto⟩ := hl.step_to hop
  refine ⟨l.length, v, fun fuel hfuel => hv.total hfuel, fun a ha => hto.enters ha,
    fun a => hto.left hl⟩

theorem run_queue_integrity_two_tasks : ∃ s, bootSched.exec 2 [.create 2, .add 2, .yield] = some s ∧
    s.current = 2 ∧ ∃ l, Ring s.next s.current l ∧ ∀ a, a ∈ s.current :: l ↔
      s.block a = .queued := by
  have hexec : bootSched.exec 2 [.create 2, .add 2, .yield] = some _ := rfl
  exact ⟨_, hexec, rfl, (run_queue_integrity booted_bootSched (SchedRun.nil.exec hexec)).1⟩

end AliOS
