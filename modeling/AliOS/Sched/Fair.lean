import AliOS.Sched.Cycle

/-!
# AliOS.Sched.Fair

Bounded waiting.  `schedule` goes to the first task behind `current_task` that can run, so a
task that can run is passed over only by the tasks in front of it, and by each of them once.
New tasks are put in front of all others; in a run without them a task that can run gets the
processor after fewer calls of `schedule` than there are tasks in the queue.
-/

namespace AliOS

open Lib List Option

/-- The task at `a` could run, and another one has the processor. -/
structure Sched.InLine (s : Sched) (a : Nat) : Prop where
  queued : s.block a = .queued
  runnable : (s.tasks a).runnable = true
  waits : s.current ≠ a

/-- The calls of `schedule` that a step makes for certain. -/
def Op.calls : Op → Nat
  | .yield | .sleep _ | .exit _ | .tick => 1
  | _ => 0

def Op.addsTask : Op → Bool
  | .add _ | .fork (some _) => true
  | _ => false

/-- A run without new tasks in which the task at `a` never gets the processor, and the number of
calls of `schedule` in it. -/
inductive Overlooks (a : Nat) (s₀ : Sched) : Nat → Sched → Prop where
  | start (h : s₀.InLine a) : Overlooks a s₀ 0 s₀
  | step {s s' : Sched} {n : Nat} (fuel : Nat) (op : Op) :
      Overlooks a s₀ n s → op.allowed s = true → op.addsTask = false →
      s.step fuel op = some s' → s'.InLine a → Overlooks a s₀ (n + op.calls) s'

/-- On the ring, `n` tasks are in front of the task at `a`. -/
def Sched.Ahead (s : Sched) (a n : Nat) : Prop := ∃ l₁ l₂, Linked s (l₁ ++ a :: l₂) ∧ l₁.length = n

/-- Two places of one list. -/
theorem split_ne {l₁ l₂ m₁ m₂ : List Nat} {a x : Nat} (h : l₁ ++ a :: l₂ = m₁ ++ x :: m₂)
    (hne : a ≠ x) :
    (∃ r, l₁ = m₁ ++ x :: r ∧ m₂ = r ++ a :: l₂) ∨ ∃ r, m₁ = l₁ ++ a :: r ∧ l₂ = r ++ x :: m₂ := by
  obtain ⟨r, rfl, hr⟩ | ⟨r, rfl, hr⟩ := append_eq_append_iff.mp h
  · cases r with
    | nil => exact absurd (cons.inj hr).1 hne
    | cons y r => simp_all
  · cases r with
    | nil => exact absurd (cons.inj hr).1.symm hne
    | cons y r => simp_all

section

variable {s s' : Sched} {l : List Nat} {a n fuel : Nat} {op : Op}

theorem Sched.Ahead.keeps (h : s.Ahead a n) (hk : KeepsLinks s s') : s'.Ahead a n := by
  obtain ⟨l₁, l₂, hl, hn⟩ := h
  exact ⟨l₁, l₂, hl.keeps hk, hn⟩

/-- `schedule` skips only tasks that cannot run. -/
theorem Linked.schedule_first (h : Linked s l) (hs : s.schedule fuel = some s') :
    (∀ b ∈ l, (s.tasks b).runnable = false) ∧ s' = s ∨
    ∃ l₁ x l₂, l = l₁ ++ x :: l₂ ∧ (∀ b ∈ l₁, (s.tasks b).runnable = false) ∧
      s' = s.switchTo x := by
  have heq := ((h.search Pcb.runnable).map _).eq_of_some hs
  cases hfind : findPrev (fun b => (s.tasks b).runnable) s.current l with
  | none =>
    rw [hfind] at heq
    exact .inl ⟨findPrev_eq_none.mp hfind, heq⟩
  | some r =>
    obtain ⟨l₁, l₂, hl, -, hfirst, -⟩ := findPrev_eq_some hfind
    rw [hfind] at heq
    exact .inr ⟨l₁, r.2, l₂, hl, hfirst, heq⟩

/-- A call of `schedule` that passes over a task brings it nearer. -/
theorem Sched.Ahead.schedule (h : s.Ahead a n) (hs : s.schedule fuel = some s')
    (hline : s'.InLine a) :
    ∃ m, s'.Ahead a m ∧ m + 1 ≤ n := by
  obtain ⟨l₁, l₂, hl, rfl⟩ := h
  have hcur : s.current ∉ l₁ ++ a :: l₂ := hl.cur_not_mem
  obtain ⟨hnone, rfl⟩ | ⟨m₁, x, m₂, hsplit, hfirst, rfl⟩ := hl.schedule_first hs
  · exact absurd hline.runnable (by simp [hnone a])
  · have hxa : a ≠ x := hline.waits.symm
    have hrun : (s.tasks a).runnable := by
      have hrun := hline.runnable
      rwa [s.switchTo_tasks (by grind), if_neg hxa, if_neg (by grind)] at hrun
    have ham : a ∉ m₁ := fun hmem => by simp [hfirst a hmem] at hrun
    obtain ⟨r, rfl, rfl⟩ | ⟨r, rfl, -⟩ := split_ne hsplit hxa
    · rw [hsplit] at hl
      have hnext := hl.switchTo
      rw [append_assoc, cons_append] at hnext
      exact ⟨r.length, ⟨r, _, hnext, rfl⟩, by simp⟩
    · simp at ham

/-- The release of another task. -/
theorem Linked.ahead_reap {l₁ l₂ m₁ m₂ : List Nat} {t : Nat} (h : Linked s (l₁ ++ a :: l₂))
    (hsplit : l₁ ++ a :: l₂ = m₁ ++ t :: m₂) (hne : t ≠ a) :
    ∃ m, (s.reap ((s.current :: m₁).getLast (by simp)) t).Ahead a m ∧ m ≤ l₁.length := by
  have hreap := (hsplit ▸ h).reap
  obtain ⟨r, rfl, rfl⟩ | ⟨r, rfl, rfl⟩ := split_ne hsplit hne.symm
  · rw [← append_assoc] at hreap
    exact ⟨_, ⟨_, _, hreap, rfl⟩, by simp⟩
  · rw [append_assoc, cons_append] at hreap
    exact ⟨_, ⟨_, _, hreap, rfl⟩, Nat.le_refl _⟩

/-- A step without a new task does not move a task that can run back on the ring. -/
theorem Sched.Ahead.step (h : s.Ahead a n) (hop : op.allowed s) (hnew : op.addsTask = false)
    (hstep : s.step fuel op = some s') (hline : s.InLine a) (hline' : s'.InLine a) :
    ∃ m, s'.Ahead a m ∧ m + op.calls ≤ n := by
  have hsched : ∀ {s₁ : Sched}, KeepsLinks s s₁ → s₁.schedule fuel = some s' → ∃ m, s'.Ahead a m ∧
      m + 1 ≤ n :=
    fun hk hs => (h.keeps hk).schedule hs hline'
  have hstay : (∀ l, Linked s l → Linked s' l) → ∃ m, s'.Ahead a m ∧ m ≤ n := fun hk => by
    obtain ⟨l₁, l₂, hl, hn⟩ := h
    exact ⟨n, ⟨l₁, l₂, hk _ hl, hn⟩, Nat.le_refl n⟩
  cases op with
  | create b =>
    simp only [Op.allowed, Bool.and_eq_true, beq_iff_eq] at hop
    obtain rfl := Option.some.inj hstep
    exact hstay fun l hl => hl.taskCreateUser (by simp [hop.2])
  | add b => simp [Op.addsTask] at hnew
  | fork child =>
    cases child with
    | none =>
      obtain rfl := Option.some.inj hstep
      exact hstay fun _ hl => hl
    | some b => simp [Op.addsTask] at hnew
  | yield => exact hsched (.refl s) hstep
  | sleep ms =>
    simp only [Sched.step, Sched.schedSleep] at hstep
    split at hstep
    · exact hsched (.refl s) hstep
    · exact hsched ((s.stores_modify _ _).keeps rfl) hstep
  | wait =>
    obtain ⟨x, hwait, rfl⟩ := map_eq_some_iff.mp hstep
    obtain ⟨r, hfind, hrest⟩ := bind_eq_some_iff.mp hwait
    cases r with
    | some r =>
      obtain ⟨l₁, l₂, hl, rfl⟩ := h
      obtain ⟨m₁, m₂, hsplit, hz, -, hprev⟩ :=
        findPrev_eq_some ((hl.search _).eq_of_some hfind).symm
      obtain rfl := Option.some.inj hrest
      -- the zombie that is reaped is another task
      have hne : r.2 ≠ a := by
        rintro rfl
        have hrun := hline.runnable
        simp_all [Task.zombieOf, Pcb.runnable]
      obtain ⟨m, hm, hle⟩ := hl.ahead_reap hsplit hne
      rw [← hprev] at hm
      exact ⟨m, hm.keeps (show KeepsLinks _ (Sched.leaveWait _)
        from (Sched.stores_modify _ _ _).keeps rfl), hle⟩
    | none =>
      obtain ⟨r, -, hrest⟩ := bind_eq_some_iff.mp hrest
      cases r with
      | none =>
        obtain rfl := Option.some.inj hrest
        exact hstay fun _ hl => hl.keeps
          (show KeepsLinks s s.leaveWait from (s.stores_modify _ _).keeps rfl)
      | some c =>
        obtain ⟨v, hs, rfl⟩ := map_eq_some_iff.mp hrest
        obtain ⟨m, hm, hlt⟩ := hsched ((s.stores_modify _ _).keeps rfl) hs
        exact ⟨m, hm, Nat.le_of_lt hlt⟩
  | exit code =>
    have hz : KeepsLinks s (s.becomeZombie code) := (s.stores_becomeZombie code).keeps rfl
    simp only [Sched.step, Sched.schedExit] at hstep
    split at hstep
    · obtain ⟨r, -, hrest⟩ := bind_eq_some_iff.mp hstep
      cases r with
      | none => exact hsched hz hrest
      | some r => exact hsched (hz.trans ((Sched.stores_modify _ _ _).keeps rfl)) hrest
    · exact hsched hz hstep
  | kill pid sig =>
    obtain ⟨x, hkill, rfl⟩ := map_eq_some_iff.mp hstep
    obtain ⟨r, -, rfl⟩ := map_eq_some_iff.mp hkill
    refine hstay fun l hl => ?_
    split
    · dsimp only
      exact hl.keeps ((s.stores_modify _ _).keeps rfl)
    · exact hl
  | setForeground t =>
    obtain rfl := Option.some.inj hstep
    exact hstay fun _ hl => ⟨hl.ring, hl.queued⟩
  | ctrlc =>
    obtain rfl := Option.some.inj hstep
    refine hstay fun l hl => ?_
    unfold Sched.schedCtrlc
    split
    · exact hl
    · split
      · exact hl.keeps ((s.stores_modify _ _).keeps rfl)
      · exact hl
  | tick =>
    obtain ⟨s₁, hpasses, hs⟩ := bind_eq_some_iff.mp hstep
    obtain ⟨l₁, l₂, hl, -⟩ := h
    obtain rfl := hl.tickPasses.eq_of_some hpasses
    exact hsched (s.keeps_passed _) hs

end

section

variable {s₀ s s' : Sched} {a n k : Nat}

theorem Overlooks.inLine (h : Overlooks a s n s') : s.InLine a ∧ s'.InLine a := by
  induction h with
  | start h => exact ⟨h, h⟩
  | step _ _ _ _ _ _ hline ih => exact ⟨ih.1, hline⟩

theorem Overlooks.ahead (h : Overlooks a s n s') (hk : s.Ahead a k) :
    ∃ m, s'.Ahead a m ∧ m + n ≤ k := by
  induction h with
  | start => exact ⟨k, hk, Nat.le_refl k⟩
  | step fuel op h hop hnew hstep hline ih =>
    obtain ⟨m, hm, hle⟩ := ih
    obtain ⟨m', hm', hle'⟩ := hm.step hop hnew hstep h.inLine.2 hline
    exact ⟨m', hm', by omega⟩

/-- **Bounded waiting.**  While no task is added, a task that can run is passed over by at most as
many calls of `schedule` as there are tasks in the queue beside it and `current_task`. -/
theorem bounded_waiting {ok : Sched → Op → Prop} (hboot : Booted s₀) (hrun : SchedRun ok s₀ s)
    (h : Overlooks a s n s') :
    ∃ l : List Nat, l.Nodup ∧ (∀ b, b ∈ l ↔ s.block b = .queued) ∧ n + 2 ≤ l.length := by
  obtain ⟨l, hl⟩ := hrun.linked hboot
  have hmem : a ∈ l := by
    have hq := (hl.queued a).mpr h.inLine.1.queued
    exact (mem_cons.mp hq).resolve_left h.inLine.1.waits.symm
  obtain ⟨l₁, l₂, rfl⟩ := append_of_mem hmem
  obtain ⟨m, -, hle⟩ := h.ahead ⟨l₁, l₂, hl, rfl⟩
  refine ⟨s.current :: (l₁ ++ a :: l₂), hl.ring.nodup, hl.queued, ?_⟩
  simp only [length_cons, length_append]
  omega

/-- The boot task has added two others. -/
def threeTasks : Sched := (((bootSched.taskCreateUser 2).schedAdd 2).taskCreateUser 3).schedAdd 3

/-- The first tick goes to the younger one. -/
theorem bounded_waiting_three :
    bootSched.exec 3 [.create 2, .add 2, .create 3, .add 3] = some threeTasks ∧
    ∃ s', threeTasks.step 3 .tick = some s' ∧ s'.current = 3 ∧
    ∃ l : List Nat, l.Nodup ∧ (∀ b, b ∈ l ↔ threeTasks.block b = .queued) ∧ 1 + 2 ≤ l.length := by
  have hexec : bootSched.exec 3 [.create 2, .add 2, .create 3, .add 3] = some threeTasks := rfl
  have htick : threeTasks.step 3 .tick = some _ := rfl
  have hpassed := Overlooks.step 3 .tick (.start ⟨rfl, rfl, by decide⟩) rfl rfl htick (a := 2)
    ⟨rfl, rfl, by decide⟩
  exact ⟨hexec, _, htick, rfl, bounded_waiting booted_bootSched (SchedRun.nil.exec hexec) hpassed⟩

end

end AliOS
