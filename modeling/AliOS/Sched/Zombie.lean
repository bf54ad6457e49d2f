import AliOS.Sched.Running

/-!
# AliOS.Sched.Zombie

A zombie stays one until its parent reaps it, and the parent gets the exit code it
died with.  Two things can break this.  A task that is killed while it waits for a child
keeps `waiting`, and its child wakes it up on exit; and a task that is killed while it
has the processor goes on when no other task can run.
-/

namespace AliOS

open Lib Function

/-! ## the condition -/

/-- Nobody exits whose parent is a zombie that still waits, and SIGKILL hits
`current_task` only when another task can run. -/
def ZombieSafe (s : Sched) : Op → Prop
  | .exit _ => ∀ p, s.block p = .queued → p ≠ s.current → (s.tasks p).pid = s.cur.parentPid →
      (s.tasks p).waiting = true → (s.tasks p).state ≠ .zombie
  | .tick => s.Doomed → ∃ x, s.Successor x
  | _ => True

/-! ## a zombie with the processor -/

/-- The only zombie that has the processor is one in the idle loop of `sched_exit`. -/
def Sched.IdleZombie (s : Sched) : Prop := s.cur.state = .zombie → s.cur.resume = .exited

section

variable {s s' s₁ : Sched} {l : List Nat} {op : Op} {b : Nat} {t : Pcb} {sched : Bool}

theorem Pcb.ticked_of_zombie {t : Pcb} (h : t.state = .zombie) (now : Nat) : t.ticked now = t := by
  simp [Pcb.ticked, Pcb.wakeSleeper, h]

theorem Pcb.ticked_zombie {t : Pcb} {now : Nat} (h : (t.ticked now).state = .zombie) :
    t.state = .zombie ∨ t.doomed ∧ t.state ≠ .zombie := by
  obtain ⟨hd, hz, -⟩ | ⟨-, heq⟩ := t.ticked_cases now
  · exact .inr ⟨hd, hz⟩
  · rw [heq] at h
    obtain heq' | ⟨-, -, heq'⟩ := t.wakeSleeper_cases now
    · exact .inl (heq' ▸ h)
    · simp [heq'] at h

/-- A caller is no zombie. -/
theorem Sched.IdleZombie.caller (h : s.IdleZombie) (hop : op.allowed s)
    (hcall : op ≠ .tick ∧ op ≠ .ctrlc) : s.cur.state ≠ .zombie := fun hz => by
  have he := h hz
  cases op <;> simp_all [Op.allowed]

theorem StepTo.idleZombie (hs : StepTo s l op s') (hl : Linked s l) (hop : op.allowed s)
    (hok : ZombieSafe s op) (h : s.IdleZombie) : s'.IdleZombie := by
  have hcur : s.block s.current ≠ .free := by simp [hl.cur_queued]
  obtain hacts | ⟨s₁, hacts, hsc⟩ := hs.acts hl
  · obtain ⟨t, ht, n, hn⟩ := hacts.tasks s.current hcur
    unfold Sched.IdleZombie Sched.cur
    rw [hacts.current, hn]
    cases ht with
    | same => exact h
    | add => simp
    | leaveWait => exact fun hz => absurd hz (h.caller hop (by simp))
    | kill => exact h
    | ctrlc => exact h
  cases hsc with
  | stay hnone =>
    obtain ⟨t, ht, n, hn⟩ := hacts.tasks s.current hcur
    unfold Sched.IdleZombie Sched.cur
    rw [hacts.current, hn]
    cases ht with
    | same => exact h
    | sleep => simp
    | block => simp
    | exit => exact fun _ => rfl
    | parent hmem => exact absurd hmem hl.cur_not_mem
    | tick =>
      obtain ⟨-, heq⟩ | ⟨-, heq⟩ := s.passed_cases hl.ring.nodup List.mem_cons_self
      · simp [heq, Pcb.woken]
      · rw [heq, (Pcb.ticked_frame _ _).2.2.2.2]
        intro hz
        obtain hz | hd := Pcb.ticked_zombie hz
        · exact h hz
        · obtain ⟨x, hx⟩ := hok hd
          exact absurd hx (hacts.no_successor hl hd hnone x)
  | @switch x hx hrun =>
    have hne : x ≠ s₁.current := fun heq => hl.cur_not_mem (hacts.current ▸ heq ▸ hx)
    show ((s₁.switchTo x).tasks x).state = .zombie → _
    simp [s₁.switchTo_tasks hne]

/-- A zombie is left alone by what comes before `schedule`. -/
theorem TaskActs.zombie (ht : TaskActs s l op sched b t) (hl : Linked s l) (hop : op.allowed s)
    (hok : ZombieSafe s op) (h : s.IdleZombie) (hb : s.block b = .queued)
    (hz : (s.tasks b).state = .zombie) : t.state = .zombie ∧ t.exitCode = (s.tasks b).exitCode ∧
      t.pid = (s.tasks b).pid ∧ t.parentPid = (s.tasks b).parentPid := by
  cases ht with
  | same => exact ⟨hz, rfl, rfl, rfl⟩
  | add =>
    simp [Op.allowed, hb] at hop
  | sleep => exact absurd hz (h.caller hop (by simp))
  | leaveWait => exact absurd hz (h.caller hop (by simp))
  | block => exact absurd hz (h.caller hop (by simp))
  | exit => exact absurd hz (h.caller hop (by simp))
  | parent hmem hpid hwait =>
    exact absurd hz (hok b hb (fun heq => hl.cur_not_mem (heq ▸ hmem)) hpid hwait)
  | kill => exact ⟨hz, rfl, rfl, rfl⟩
  | ctrlc => exact ⟨hz, rfl, rfl, rfl⟩
  | tick hmem =>
    obtain ⟨hw, -⟩ | ⟨-, heq⟩ := s.passed_cases hl.ring.nodup hmem
    · have hstate := hw.1
      simp [Pcb.ticked_of_zombie hz, hz] at hstate
    · rw [heq, Pcb.ticked_of_zombie hz]
      exact ⟨hz, rfl, rfl, rfl⟩

/-- The task at `b`, a zombie in `s`, is still one in `s'`, with the same exit code, and has
not got the processor. -/
structure StillZombie (s s' : Sched) (b : Nat) : Prop where
  queued : s'.block b = .queued
  state : (s'.tasks b).state = .zombie
  exitCode : (s'.tasks b).exitCode = (s.tasks b).exitCode
  pid : (s'.tasks b).pid = (s.tasks b).pid
  parentPid : (s'.tasks b).parentPid = (s.tasks b).parentPid
  current : s'.current = b → s.current = b

theorem StillZombie.trans {s'' : Sched} (h : StillZombie s s' b) (h' : StillZombie s' s'' b) :
    StillZombie s s'' b where
  queued := h'.queued
  state := h'.state
  exitCode := h'.exitCode.trans h.exitCode
  pid := h'.pid.trans h.pid
  parentPid := h'.parentPid.trans h.parentPid
  current := fun hc => h.current (h'.current hc)

/-- A zombie that is not reaped. -/
theorem StepTo.stillZombie (hs : StepTo s l op s') (hl : Linked s l) (hop : op.allowed s)
    (hok : ZombieSafe s op) (h : s.IdleZombie) (hb : s.block b = .queued)
    (hz : (s.tasks b).state = .zombie) (hb' : s'.block b = .queued) : StillZombie s s' b := by
  obtain hacts | ⟨s₁, hacts, hsc⟩ := hs.acts hl
  all_goals
    obtain ⟨t, ht, n, hn⟩ := hacts.tasks b (by simp [hb])
    obtain ⟨hstate, hcode, hpid, hparent⟩ := ht.zombie hl hop hok h hb hz
  · exact ⟨hb', by rw [hn]; exact hstate, by rw [hn]; exact hcode, by rw [hn]; exact hpid,
      by rw [hn]; exact hparent, fun hc => hacts.current.symm.trans hc⟩
  · have hcur : s₁.current ∉ l := hacts.current ▸ hl.cur_not_mem
    have hz1 : (s₁.tasks b).state = .zombie := by rw [hn]; exact hstate
    have htask := hsc.task hcur b
    obtain ⟨heq, hc⟩ | ⟨-, hrun, -⟩ | ⟨-, -, hrun, -⟩ := hsc.state hcur b
    · rw [hn] at htask
      refine ⟨hb', heq.trans hz1, ?_, ?_, ?_, fun hc' => ?_⟩
      · rw [htask]
        exact hcode
      · rw [htask]
        exact hpid
      · rw [htask]
        exact hparent
      · exact hacts.current.symm.trans (hc hc'.symm).symm
    · simp [hz1] at hrun
    · simp [Pcb.runnable, hz1] at hrun

/-- The zombie at `b` is reaped by its parent, which gets its exit code. -/
structure Reaped (s s' : Sched) (b : Nat) : Prop where
  result : ∃ fuel, s.schedWait fuel = some (.reaped (asInt (s.tasks b).pid) (s.tasks b).exitCode,
    s')
  parent : (s.tasks b).parentPid = s.cur.pid
  state : (s.tasks b).state = .zombie
  freed : s'.block b = .free

/-- A zombie that leaves the queue. -/
theorem Linked.reaped (hl : Linked s l) {fuel : Nat} (hstep : s.step fuel .wait = some s')
    (hb : s.block b = .queued) (hb' : s'.block b ≠ .queued) : Reaped s s' b := by
  obtain ⟨r, v, hv, -, hcase⟩ := hl.schedWait
  obtain ⟨⟨r', s''⟩, hwait, heq⟩ := Option.map_eq_some_iff.mp hstep
  obtain ⟨rfl, rfl⟩ := Prod.mk.inj (hv.eq_of_some hwait)
  obtain rfl : s'' = s' := heq
  obtain ⟨l₁, t, l₂, -, hz, hr, hreap⟩ | ⟨hblock, -⟩ := hcase
  · have hfree : s''.block = update s.block t .free := by rw [hreap]; rfl
    obtain rfl : b = t := by
      by_contra hne
      rw [hfree, update_of_ne hne] at hb'
      exact hb' hb
    simp only [Task.zombieOf, Bool.and_eq_true, beq_iff_eq] at hz
    exact ⟨⟨fuel, hr ▸ hwait⟩, hz.2, hz.1, by rw [hfree, update_self]⟩
  · exact absurd (hblock ▸ hb) hb'

end

/-! ## runs -/

theorem SchedRun.trans {ok : Sched → Op → Prop} {s₀ s s' : Sched} (h : SchedRun ok s₀ s)
    (h' : SchedRun ok s s') :
    SchedRun ok s₀ s' := by
  induction h' with
  | nil => exact h
  | step fuel op _ hop hok hstep ih => exact .step fuel op ih hop hok hstep

theorem SchedRun.idleZombie {s₀ s : Sched} (hboot : Booted s₀) (hrun : SchedRun ZombieSafe s₀ s) :
    s.IdleZombie := by
  induction hrun with
  | nil => simp [Sched.IdleZombie, Sched.cur, hboot.current, hboot.boot, bootPcb]
  | step fuel op hrun hop hok hstep ih =>
    obtain ⟨l, hl⟩ := hrun.linked hboot
    have hto := hl.step_some hop hstep
    exact hto.idleZombie hl hop hok ih

/-- **A zombie is terminal.**  In every run whose steps are safe for zombies, a task that
is a zombie in some state stays one, never gets the processor again, and keeps its exit
code, until `sched_wait` of its parent reaps it and returns that exit code. -/
theorem zombie_terminal {s₀ s s' : Sched} {b : Nat} (hboot : Booted s₀)
    (hrun : SchedRun ZombieSafe s₀ s)
    (hb : s.block b = .queued) (hz : (s.tasks b).state = .zombie)
    (hrun' : SchedRun ZombieSafe s s') :
    StillZombie s s' b ∨ ∃ s₁ s₂, SchedRun ZombieSafe s s₁ ∧ StillZombie s s₁ b ∧ Reaped s₁ s₂ b ∧
      SchedRun ZombieSafe s₂ s' := by
  induction hrun' with
  | nil => exact .inl ⟨hb, hz, rfl, rfl, rfl, id⟩
  | @step s₁ s₂ fuel op hrun' hop hok hstep ih =>
    obtain hstill | ⟨t1, t2, h1, hstill, hreaped, h2⟩ := ih
    · have hrun1 := hrun.trans hrun'
      obtain ⟨l, hl⟩ := hrun1.linked hboot
      have hto := hl.step_some hop hstep
      by_cases hb' : s₂.block b = .queued
      · exact .inl (hstill.trans
          (hto.stillZombie hl hop hok (hrun1.idleZombie hboot) hstill.queued hstill.state hb'))
      · obtain ⟨rfl, -⟩ := hto.left hl hstill.queued hb'
        exact .inr ⟨s₁, s₂, hrun', hstill, hl.reaped hstep hstill.queued hb', .nil⟩
    · exact .inr ⟨t1, t2, h1, hstill, hreaped, .step fuel op h2 hop hok hstep⟩

/-- The boot task reaps a child that has exited with 7. -/
theorem zombie_terminal_reaped : ∃ s s',
    bootSched.exec 2 [.create 2, .add 2, .yield, .exit (some 7)] = some s ∧
      s.exec 2 [.wait] = some s' ∧
    (s.tasks 2).state = .zombie ∧
    (StillZombie s s' 2 ∨ ∃ s₁ s₂, SchedRun ZombieSafe s s₁ ∧ StillZombie s s₁ 2 ∧ Reaped s₁ s₂ 2 ∧
      SchedRun ZombieSafe s₂ s') := by
  have hyield : SchedRun ZombieSafe bootSched
      (((bootSched.taskCreateUser 2).schedAdd 2).switchTo 2) :=
    .step 2 .yield (.step 2 (.add 2) (.step 2 (.create 2) .nil rfl trivial rfl) rfl trivial rfl)
      rfl trivial rfl
  have hsafe : ZombieSafe (((bootSched.taskCreateUser 2).schedAdd 2).switchTo 2)
      (.exit (some 7)) := by
    intro p hq hne _ hwait
    have hp : p = 1 := by
      by_contra hp
      have hne' : p ≠ 2 := hne
      have hfree : (((bootSched.taskCreateUser 2).schedAdd 2).switchTo 2).block p = .free := by
        show update (update bootSched.block 2 .created) 2 .queued p = .free
        rw [update_of_ne hne', update_of_ne hne']
        exact if_neg hp
      simp [hfree] at hq
    subst hp
    exact absurd hwait (by decide)
  have hexit := SchedRun.step 2 (.exit (some 7)) hyield rfl hsafe rfl
  exact ⟨_, _, rfl, rfl, rfl,
    zombie_terminal booted_bootSched hexit rfl rfl (.step 2 .wait .nil rfl trivial rfl)⟩

/-- A parent that is killed while it waits for its child is a zombie; the exit of the
child puts it back among the tasks that can run, and it gets the processor again. -/
theorem zombie_runs_again : Booted bootSched ∧ ∃ s s', SchedRun (fun _ _ => True) bootSched s ∧
    s.block 3 = .queued ∧ (s.tasks 3).state = .zombie ∧
      s.exec 4 [.exit (some 0), .yield] = some s' ∧
    s'.block 3 = .queued ∧ s'.current = 3 ∧ (s'.tasks 3).state = .running := by
  have htest : (bootSched.exec 4 [.create 2, .add 2, .wait, .fork (some 3), .yield,
      .fork (some 4), .wait,
      .yield, .kill 2 9, .tick]).any
        (fun s => s.block 3 == .queued && (s.tasks 3).state == .zombie &&
        (s.exec 4 [.exit (some 0), .yield]).any fun s' =>
          s'.block 3 == .queued && s'.current == 3 && (s'.tasks 3).state == .running) = true := by
    decide +kernel
  obtain ⟨s, hexec, hs⟩ := (Option.any_eq_true _ _).mp htest
  simp only [Bool.and_eq_true, beq_iff_eq] at hs
  obtain ⟨s', hexec', hs'⟩ := (Option.any_eq_true _ _).mp hs.2
  simp only [Bool.and_eq_true, beq_iff_eq] at hs'
  exact ⟨booted_bootSched, s, s', SchedRun.nil.exec hexec, hs.1.1, hs.1.2, hexec', hs'.1.1,
    hs'.1.2, hs'.2⟩

end AliOS
