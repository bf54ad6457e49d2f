import AliOS.Sched.Queue

/-!
# AliOS.Sched.Steps

What a step of the scheduler can do.  `Linked s l` says that from `current_task` the
links lead once through the tasks `l` and back, and that these are the tasks that have
been added and not reaped.  Under it every loop over the queue ends, and each routine
is a function of the ring: `StepTo` lists what a step can do, and `step_to` shows that
the routines do just that, with as many iterations as there are tasks.  The invariants
of the other modules are proved from `StepTo` alone.
-/

namespace AliOS

open Lib Function List

/-! ## stores into tasks -/

/-- `s'` is `s` with the task `t` at `a`, up to the pipes. -/
def Sched.Stores (s : Sched) (a : Nat) (t : Pcb) (s' : Sched) : Prop :=
  s' = { s with tasks := update s.tasks a t, pipes := s'.pipes }

section

variable {s s' s'' : Sched} {a b : Nat} {t t' : Pcb}

theorem Sched.stores_modify (s : Sched) (a : Nat) (f : Pcb → Pcb) :
    s.Stores a (f (s.tasks a)) (s.modify a f) := rfl

theorem Sched.Stores.self (h : s.Stores a t s') : s'.tasks a = t := by
  rw [h]
  exact update_self _ _ _

theorem Sched.Stores.of_ne (h : s.Stores a t s') (hb : b ≠ a) : s'.tasks b = s.tasks b := by
  rw [h]
  exact update_of_ne hb _ _

/-- Two stores into the same task. -/
theorem Sched.Stores.trans (h : s.Stores a t s') (h' : s'.Stores a t' s'') : s.Stores a t' s'' := by
  unfold Sched.Stores at h h' ⊢
  rw [h', h]
  simp

theorem Sched.Stores.modify (h : s.Stores a t s') (f : Pcb → Pcb) :
    s.Stores a (f t) (s'.modify a f) := by
  have hmod := s'.stores_modify a f
  rw [h.self] at hmod
  exact h.trans hmod

end

/-! ## what the routines store -/

/-- A descriptor after `release_pipe_fds`. -/
def TaskFd.released (f : TaskFd) : TaskFd :=
  if f.used && f.type == .pipe then { f with used := false } else f

theorem releaseFds_table (fds : Nat → TaskFd) (ps : Pipes) (i : Nat) :
    (forRange releaseFd 0 taskFdMax (fds, ps)).1 i = if i < taskFdMax then (fds i).released
      else fds i := by
  have hloop := forRange_induct
    (fun n (st : (Nat → TaskFd) × Pipes) => st.1 i = if i < n then (fds i).released else fds i)
    (show (fds, ps).1 i = if i < 0 then (fds i).released else fds i by simp)
    (show ∀ n st, 0 ≤ n → n < 0 + taskFdMax → _ → (releaseFd n st).1 i = _ from ?_)
  · simpa using hloop
  · intro n st _ _ hst
    unfold releaseFd
    by_cases hin : i = n
    · subst hin
      rw [if_neg (Nat.lt_irrefl _)] at hst
      split <;> simp_all [TaskFd.released]
    · have hlt : i < n + 1 ↔ i < n := by omega
      simp only [hlt]
      split
      · exact (update_of_ne hin _ _).trans hst
      · exact hst

/-- A task after `release_pipe_fds`. -/
def Pcb.released (t : Pcb) : Pcb :=
  { t with fdTable := fun i => if i < taskFdMax then (t.fdTable i).released else t.fdTable i }

theorem Sched.stores_releasePipeFds (s : Sched) (a : Nat) :
    s.Stores a (s.tasks a).released (s.releasePipeFds a) := by
  have htable := funext (releaseFds_table (s.tasks a).fdTable s.pipes)
  unfold Sched.Stores Sched.releasePipeFds Pcb.released
  rw [← htable]
  rfl

theorem inheritFds_table (fdTable fds : Nat → TaskFd) (ps : Pipes) (i : Nat) :
    (forRange (inheritFd fdTable) 0 taskFdMax (fds, ps)).1 i = if i < taskFdMax then fdTable i
      else fds i := by
  have hloop := forRange_induct
    (fun n (st : (Nat → TaskFd) × Pipes) => st.1 i = if i < n then fdTable i else fds i)
    (show (fds, ps).1 i = if i < 0 then fdTable i else fds i by simp)
    (show ∀ n st, 0 ≤ n → n < 0 + taskFdMax → _ → (inheritFd fdTable n st).1 i = _ from ?_)
  · simpa using hloop
  · intro n st _ _ hst
    unfold inheritFd
    by_cases hin : i = n
    · subst hin
      simp
    · have hlt : i < n + 1 ↔ i < n := by omega
      simp only [hlt]
      exact (update_of_ne hin _ _).trans hst

theorem Sched.stores_inheritFds (s : Sched) (fdTable : Nat → TaskFd) (a : Nat) :
    s.Stores a { s.tasks a with
      fdTable := fun i => if i < taskFdMax then fdTable i else (s.tasks a).fdTable i }
      (s.inheritFds fdTable a) := by
  have htable := funext (inheritFds_table fdTable (s.tasks a).fdTable s.pipes)
  rw [← htable]
  rfl

/-- SIGKILL is pending. -/
def Pcb.doomed (t : Pcb) : Bool := t.pendingSigs &&& sigkill != 0

/-- A task to which SIGKILL has been delivered. -/
def Pcb.killed (t : Pcb) : Pcb :=
  { t.released with pendingSigs := t.pendingSigs &&& ~~~sigkill, exitCode := -9, state := .zombie }

/-- A task after the first loop of `sched_tick`. -/
def Pcb.ticked (now : Nat) (t : Pcb) : Pcb :=
  if t.doomed && t.state != .zombie then (t.wakeSleeper now).killed else t.wakeSleeper now

theorem Pcb.wakeSleeper_cases (now : Nat) (t : Pcb) :
    t.wakeSleeper now = t ∨ t.state = .blocked ∧ t.wakeupTick ≠ 0 ∧
      t.wakeSleeper now = { t with wakeupTick := 0, state := .ready } := by
  unfold Pcb.wakeSleeper
  split
  · rename_i h
    exact .inr ⟨h.1, h.2.1, rfl⟩
  · exact .inl rfl

theorem Pcb.ticked_cases (now : Nat) (t : Pcb) :
    t.doomed ∧ t.state ≠ .zombie ∧ t.ticked now = (t.wakeSleeper now).killed ∨
      (t.doomed = false ∨ t.state = .zombie) ∧ t.ticked now = t.wakeSleeper now := by
  unfold Pcb.ticked
  by_cases hd : t.doomed = true <;> by_cases hz : t.state = .zombie <;> simp [hd, hz]

/-- What the first loop of `sched_tick` never writes. -/
theorem Pcb.ticked_frame (now : Nat) (t : Pcb) : (t.ticked now).next = t.next ∧
    (t.ticked now).pid = t.pid ∧ (t.ticked now).parentPid = t.parentPid ∧
    (t.ticked now).waiting = t.waiting ∧ (t.ticked now).resume = t.resume := by
  obtain ⟨-, -, h⟩ | ⟨-, h⟩ := t.ticked_cases now <;> rw [h] <;>
    obtain h' | ⟨-, -, h'⟩ := t.wakeSleeper_cases now <;> rw [h'] <;>
      exact ⟨rfl, rfl, rfl, rfl, rfl⟩

theorem Sched.stores_tickVisit (s : Sched) (now a : Nat) :
    s.Stores a ((s.tasks a).ticked now) (s.tickVisit now a) := by
  have hwake := s.stores_modify a (Pcb.wakeSleeper now)
  have hsame : ((s.tasks a).wakeSleeper now).pendingSigs = (s.tasks a).pendingSigs ∧
      (((s.tasks a).wakeSleeper now).state = .zombie ↔ (s.tasks a).state = .zombie) := by
    obtain h | ⟨hb, -, h⟩ := (s.tasks a).wakeSleeper_cases now
    · simp [h]
    · simp [h, hb]
  unfold Sched.tickVisit Sched.deliverKill
  rw [hwake.self]
  by_cases hkill : (s.tasks a).pendingSigs &&& sigkill ≠ 0 ∧ (s.tasks a).state ≠ .zombie
  · have hticked : (s.tasks a).ticked now = ((s.tasks a).wakeSleeper now).killed := by
      simp [Pcb.ticked, Pcb.doomed, hkill.1, hkill.2]
    rw [if_pos (by rw [hsame.1, ne_eq, ne_eq, hsame.2]; exact hkill), hticked]
    have hclear := hwake.modify fun t => { t with pendingSigs := t.pendingSigs &&& ~~~sigkill }
    have hrelease := Sched.stores_releasePipeFds
      ((s.modify a (Pcb.wakeSleeper now)).modify a fun t =>
        { t with pendingSigs := t.pendingSigs &&& ~~~sigkill }) a
    rw [hclear.self] at hrelease
    exact (hclear.trans hrelease).modify fun t => { t with exitCode := -9, state := .zombie }
  · have hticked : (s.tasks a).ticked now = (s.tasks a).wakeSleeper now := by
      unfold Pcb.ticked Pcb.doomed
      rw [if_neg]
      simpa [Classical.not_and_iff_not_or_not] using hkill
    rw [if_neg (by rw [hsame.1, ne_eq, ne_eq, hsame.2]; exact hkill), hticked]
    exact hwake

/-- A task that has called `sched_exit`. -/
def Pcb.exited (code : Option Int) (t : Pcb) : Pcb :=
  { t.released with exitCode := code.getD t.exitCode, state := .zombie, resume := .exited }

theorem Sched.stores_becomeZombie (s : Sched) (code : Option Int) :
    s.Stores s.current (s.cur.exited code) (s.becomeZombie code) := by
  have hcode := s.stores_modify s.current fun t => { t with exitCode := code.getD t.exitCode }
  have hrelease := Sched.stores_releasePipeFds
    (s.modify s.current fun t => { t with exitCode := code.getD t.exitCode }) s.current
  rw [hcode.self] at hrelease
  exact (hcode.trans hrelease).modify fun t => { t with state := .zombie, resume := .exited }

/-! ## the ring -/

/-- The links lead from `current_task` once through `l` and back, and the tasks of this
ring are those in the queue. -/
structure Linked (s : Sched) (l : List Nat) : Prop where
  ring : Ring s.next s.current l
  queued : ∀ a, a ∈ s.current :: l ↔ s.block a = .queued

/-- `s'` differs from `s` only inside tasks, whose links are the same, and in the pipes
and the timer. -/
structure KeepsLinks (s s' : Sched) : Prop where
  next : s'.next = s.next
  current : s'.current = s.current
  block : s'.block = s.block
  nextPid : s'.nextPid = s.nextPid
  foreground : s'.foreground = s.foreground

section

variable {s s' s'' : Sched} {l : List Nat}

theorem KeepsLinks.refl (s : Sched) : KeepsLinks s s := ⟨rfl, rfl, rfl, rfl, rfl⟩

theorem KeepsLinks.trans (h : KeepsLinks s s') (h' : KeepsLinks s' s'') : KeepsLinks s s'' where
  next := h'.next.trans h.next
  current := h'.current.trans h.current
  block := h'.block.trans h.block
  nextPid := h'.nextPid.trans h.nextPid
  foreground := h'.foreground.trans h.foreground

theorem Sched.Stores.keeps {a : Nat} {t : Pcb} (h : s.Stores a t s')
    (ht : t.next = (s.tasks a).next) :
    KeepsLinks s s' := by
  refine ⟨?_, by rw [h], by rw [h], by rw [h], by rw [h]⟩
  funext b
  unfold Sched.next
  by_cases hb : b = a
  · rw [hb, h.self, ht]
  · rw [h.of_ne hb]

theorem Linked.keeps (h : Linked s l) (hk : KeepsLinks s s') : Linked s' l := by
  refine ⟨?_, fun a => ?_⟩
  · rw [hk.next, hk.current]
    exact h.ring
  · rw [hk.current, hk.block]
    exact h.queued a

theorem Linked.cur_queued (h : Linked s l) : s.block s.current = .queued :=
  (h.queued _).mp mem_cons_self

theorem Linked.cur_not_mem (h : Linked s l) : s.current ∉ l := (nodup_cons.mp h.ring.nodup).1

/-- A loop that looks for a task. -/
theorem Linked.search (h : Linked s l) (p : Pcb → Bool) :
    Settles l.length (fun fuel => s.search fuel p)
      (findPrev (fun a => p (s.tasks a)) s.current l) :=
  ringFind_settles h.ring.leads h.cur_not_mem s.current

/-- A loop over all tasks, whose body spares the links. -/
theorem Linked.forEach (h : Linked s l) {body : Nat → Nat → Sched → Option Sched}
    {g : Nat → Sched → Sched}
    (hbody : ∀ a ∈ s.current :: l, ∀ s', Linked s' l → s'.current = s.current →
      Settles l.length (fun fuel => body fuel a s') (g a s') ∧ KeepsLinks s' (g a s')) :
    Settles l.length (fun fuel => s.forEach fuel (body fuel))
      ((s.current :: l).foldl (fun s' a => g a s') s) := by
  obtain ⟨hfirst, hk⟩ := hbody s.current mem_cons_self s h rfl
  refine hfirst.bind (ringFold_settles (fun s' => Linked s' l ∧ s'.current = s.current)
    le_rfl (fun a ha s' hs' => ?_) ⟨h.keeps hk, hk.current⟩ ?_
    h.cur_not_mem)
  · obtain ⟨hs, hk'⟩ := hbody a (mem_cons_of_mem _ ha) s' hs'.1 hs'.2
    exact ⟨hs, ⟨hs'.1.keeps hk', hk'.current.trans hs'.2⟩, hk'.next⟩
  · rw [hk.next]
    exact h.ring.leads

end

/-! ## schedule -/

/-- What `schedule` does: nothing when no other task can run, or it switches to one. -/
inductive Scheduled (s : Sched) (l : List Nat) : Sched → Prop where
  | stay (h : ∀ a ∈ l, (s.tasks a).runnable = false) : Scheduled s l s
  | switch {x : Nat} (hx : x ∈ l) (hrun : (s.tasks x).runnable = true) :
      Scheduled s l (s.switchTo x)

theorem Scheduled.frame {s s' : Sched} {l : List Nat} (hs : Scheduled s l s') :
    s'.block = s.block ∧ s'.nextPid = s.nextPid ∧ s'.ticks = s.ticks ∧ s'.pipes = s.pipes ∧
      s'.foreground = s.foreground := by
  cases hs with
  | stay => simp
  | switch => exact ⟨rfl, rfl, rfl, rfl, rfl⟩

theorem Linked.schedule {s : Sched} {l : List Nat} (h : Linked s l) :
    ∃ v, Settles l.length (fun fuel => s.schedule fuel) v ∧ Scheduled s l v := by
  have hsearch := h.search Pcb.runnable
  refine ⟨_, hsearch.map _, ?_⟩
  cases hfind : findPrev (fun a => (s.tasks a).runnable) s.current l with
  | none => exact .stay (findPrev_eq_none.mp hfind)
  | some r =>
    obtain ⟨l₁, l₂, hl, hrun, -, -⟩ := findPrev_eq_some hfind
    exact .switch (by simp [hl]) hrun

/-- The tasks after a switch. -/
theorem Sched.switchTo_tasks (s : Sched) {x : Nat} (hx : x ≠ s.current) (b : Nat) :
    (s.switchTo x).tasks b =
      if b = x then { s.tasks x with state := .running }
      else if b = s.current ∧ s.cur.state = .running then { s.cur with state := .ready }
      else s.tasks b := by
  unfold Sched.switchTo Sched.cur
  by_cases hb : b = x
  · subst hb
    simp [Sched.modify, hx]
  · by_cases hc : b = s.current
    · subst hc
      simp only [Sched.modify, update_of_ne hb, update_self, if_neg hb, true_and]
    · simp [Sched.modify, hb, hc]

theorem Sched.switchTo_next (s : Sched) (x : Nat) : (s.switchTo x).next = s.next := by
  have hready := (s.stores_modify s.current fun t =>
    if t.state = .running then { t with state := .ready } else t).keeps (by split <;> rfl)
  have hrunning := (Sched.stores_modify (s.modify s.current fun t =>
    if t.state = .running then { t with state := .ready } else t) x
      fun t => { t with state := .running }).keeps rfl
  exact (hready.trans hrunning).next

theorem Linked.switchTo {s : Sched} {l₁ l₂ : List Nat} {x : Nat} (h : Linked s (l₁ ++ x :: l₂)) :
    Linked (s.switchTo x) (l₂ ++ s.current :: l₁) := by
  refine ⟨?_, fun a => ?_⟩
  · rw [Sched.switchTo_next]
    exact h.ring.rotate
  · have hmem : a ∈ (s.switchTo x).current :: (l₂ ++ s.current :: l₁) ↔
        a ∈ s.current :: (l₁ ++ x :: l₂) := by
      simp only [mem_cons, mem_append]
      tauto
    rw [hmem]
    exact h.queued a

theorem Scheduled.linked {s s' : Sched} {l : List Nat} (hs : Scheduled s l s') (h : Linked s l) :
    ∃ l', Linked s' l' := by
  cases hs with
  | stay => exact ⟨l, h⟩
  | switch hx =>
    obtain ⟨l₁, l₂, rfl⟩ := append_of_mem hx
    exact ⟨_, h.switchTo⟩

/-! ## the passes of sched_tick -/

/-- A task that waited for a child and has been woken up. -/
def Pcb.woken (t : Pcb) : Pcb := { t with waiting := false, state := .ready }

/-- A task of `ring` is a zombie child of the task at `a`. -/
def Sched.hasZombieChild (s : Sched) (ring : List Nat) (a : Nat) : Bool :=
  ring.any fun c => (s.tasks a).zombieOf (s.tasks c).toTask

/-- The second loop of `sched_tick` at the task `a`, on the tasks of the ring. -/
def Sched.wakeParentIn (s : Sched) (ring : List Nat) (a : Nat) : Sched :=
  if ((s.tasks a).state = .blocked ∧ (s.tasks a).waiting) ∧ s.hasZombieChild ring a then
    s.wakeWaiting a
  else s

/-- The first loop of `sched_tick`: sleepers and signals. -/
def Sched.firstPass (s : Sched) (l : List Nat) : Sched :=
  (s.current :: l).foldl (fun s' a => s'.tickVisit s.ticks a) s

/-- The second loop of `sched_tick`: parents. -/
def Sched.secondPass (s : Sched) (l : List Nat) : Sched :=
  (s.current :: l).foldl (fun s' a => s'.wakeParentIn (s.current :: l) a) s

/-- The state after both loops of `sched_tick`. -/
def Sched.passed (s : Sched) (l : List Nat) : Sched := (s.countTick.firstPass l).secondPass l

section

variable {s : Sched} {l : List Nat}

theorem Linked.wakeParent (h : Linked s l) (a : Nat) :
    Settles l.length (fun fuel => s.wakeParent fuel a) (s.wakeParentIn (s.current :: l) a) := by
  have hfound : ∀ p : Pcb → Bool, Settles l.length
      (fun fuel => if p s.cur then some true else (s.search fuel p).map Option.isSome)
      ((s.current :: l).any fun c => p (s.tasks c)) := by
    intro p
    have hrest := (h.search p).map Option.isSome
    rw [findPrev_isSome] at hrest
    by_cases hcur : p s.cur = true
    · have hany : ((s.current :: l).any fun c => p (s.tasks c)) := by
        rw [any_cons, show p (s.tasks s.current) = true from hcur, Bool.true_or]
      simp only [if_pos hcur, hany]
      exact .pure _ _
    · have hany : ((s.current :: l).any fun c => p (s.tasks c)) = l.any fun c => p (s.tasks c) := by
        rw [any_cons, show p (s.tasks s.current) = false from Bool.not_eq_true _ |>.mp hcur,
          Bool.false_or]
      simp only [if_neg hcur, hany]
      exact hrest
  unfold Sched.wakeParent Sched.wakeParentIn
  by_cases hwait : (s.tasks a).state = .blocked ∧ (s.tasks a).waiting
  · simp only [hwait, and_self, true_and, if_true]
    exact (hfound fun c => (s.tasks a).zombieOf c.toTask).map fun found =>
      if found then s.wakeWaiting a else s
  · simp only [hwait, false_and, if_false]
    exact .pure _ _

theorem Sched.keeps_wakeParentIn (s : Sched) (ring : List Nat) (a : Nat) :
    KeepsLinks s (s.wakeParentIn ring a) := by
  unfold Sched.wakeParentIn
  split
  · exact (s.stores_modify a Pcb.woken).keeps rfl
  · exact .refl s

theorem Sched.keeps_tickVisit (s : Sched) (now a : Nat) : KeepsLinks s (s.tickVisit now a) :=
  (s.stores_tickVisit now a).keeps (Pcb.ticked_frame _ _).1

/-- A pass whose steps keep the links keeps them. -/
theorem KeepsLinks.foldl {g : Nat → Sched → Sched} (hg : ∀ a s, KeepsLinks s (g a s))
    (m : List Nat) (s : Sched) :
    KeepsLinks s (m.foldl (fun s' a => g a s') s) := by
  induction m generalizing s with
  | nil => exact .refl s
  | cons a m ih => exact (hg a s).trans (ih (g a s))

theorem Sched.keeps_countTick (s : Sched) : KeepsLinks s s.countTick := ⟨rfl, rfl, rfl, rfl, rfl⟩

theorem Sched.keeps_firstPass (s : Sched) (l : List Nat) : KeepsLinks s (s.firstPass l) :=
  KeepsLinks.foldl (fun a s' => s'.keeps_tickVisit _ a) _ s

theorem Sched.keeps_passed (s : Sched) (l : List Nat) : KeepsLinks s (s.passed l) :=
  (s.keeps_countTick.trans (s.countTick.keeps_firstPass l)).trans
    (.foldl (fun a s' => s'.keeps_wakeParentIn _ a) _ _)

theorem Linked.tickPasses (h : Linked s l) :
    Settles l.length (fun fuel => s.tickPasses fuel) (s.passed l) := by
  have h0 : Linked s.countTick l := h.keeps s.keeps_countTick
  have hfirst : Settles l.length
      (fun fuel => s.countTick.forEach fuel fun a s' => some (s'.tickVisit s.countTick.ticks a))
      (s.countTick.firstPass l) :=
    h0.forEach fun a _ s' _ _ => ⟨.pure _ _, s'.keeps_tickVisit _ a⟩
  have hsecond : Settles l.length
      (fun fuel => (s.countTick.firstPass l).forEach fuel (Sched.wakeParent fuel)) (s.passed l) :=
    (h0.keeps (Sched.keeps_firstPass _ l)).forEach fun a _ s' hs' hcur =>
      ⟨hcur ▸ hs'.wakeParent a, s'.keeps_wakeParentIn _ a⟩
  exact hfirst.bind hsecond

/-- The tasks after the first loop. -/
theorem Sched.firstPass_tasks (s : Sched) (hl : (s.current :: l).Nodup) (b : Nat) :
    (s.firstPass l).tasks b = if b ∈ s.current :: l then (s.tasks b).ticked s.ticks
      else s.tasks b := by
  unfold Sched.firstPass
  generalize s.current :: l = m at hl ⊢
  generalize s.ticks = now
  induction m generalizing s with
  | nil => simp
  | cons a m ih =>
    obtain ⟨ha, hm⟩ := nodup_cons.mp hl
    have hstore := s.stores_tickVisit now a
    rw [foldl_cons, ih _ hm]
    by_cases hb : b = a
    · subst hb
      rw [if_neg ha, hstore.self, if_pos mem_cons_self]
    · rw [hstore.of_ne hb]
      simp [hb]

theorem Sched.wakeParentIn_tasks (s : Sched) (ring : List Nat) (a b : Nat) :
    (s.wakeParentIn ring a).tasks b =
      if b = a ∧ ((s.tasks b).state = .blocked ∧ (s.tasks b).waiting) ∧ s.hasZombieChild ring b
      then (s.tasks b).woken else s.tasks b := by
  unfold Sched.wakeParentIn
  by_cases hb : b = a
  · subst hb
    simp only [true_and]
    split
    · exact (s.stores_modify b Pcb.woken).self
    · rfl
  · simp only [hb, false_and, if_false]
    split
    · exact (s.stores_modify a Pcb.woken).of_ne hb
    · rfl

/-- Waking a parent makes no zombie and hides none. -/
theorem Sched.wakeParentIn_zombieOf (s : Sched) (ring : List Nat) (a c : Nat) (t : Task) :
    t.zombieOf ((s.wakeParentIn ring a).tasks c).toTask = t.zombieOf (s.tasks c).toTask := by
  rw [Sched.wakeParentIn_tasks]
  split
  · rename_i h
    have hstate : (TaskState.ready == .zombie) = (TaskState.blocked == .zombie) := rfl
    simp [Task.zombieOf, Pcb.woken, h.2.1.1, hstate]
  · rfl

/-- The tasks after the second loop: those that waited for a zombie are woken up. -/
theorem Sched.secondPass_tasks (s : Sched) (hl : (s.current :: l).Nodup) (b : Nat) :
    (s.secondPass l).tasks b =
      if b ∈ s.current :: l ∧ ((s.tasks b).state = .blocked ∧ (s.tasks b).waiting) ∧
          s.hasZombieChild (s.current :: l) b
      then (s.tasks b).woken else s.tasks b := by
  unfold Sched.secondPass
  generalize s.current :: l = ring at hl ⊢
  -- the loop goes over a part `m` of the ring, its body looks at all of it
  suffices hpart : ∀ m : List Nat, m.Nodup → ∀ s : Sched,
      (m.foldl (fun s' a => s'.wakeParentIn ring a) s).tasks b =
        if b ∈ m ∧ ((s.tasks b).state = .blocked ∧ (s.tasks b).waiting) ∧ s.hasZombieChild ring b
        then (s.tasks b).woken else s.tasks b from hpart ring hl s
  intro m hm
  induction m with
  | nil => simp
  | cons a m ih =>
    intro s
    obtain ⟨ha, hm⟩ := nodup_cons.mp hm
    rw [foldl_cons, ih hm, Sched.wakeParentIn_tasks]
    by_cases hb : b = a
    · subst hb
      simp [ha]
    · have hchild : (s.wakeParentIn ring a).hasZombieChild ring b = s.hasZombieChild ring b := by
        unfold Sched.hasZombieChild
        rw [Sched.wakeParentIn_tasks]
        simp only [hb, false_and, if_false, Sched.wakeParentIn_zombieOf]
      simp [hb, hchild]

end

/-! ## what a step can do -/

/-- What `sched_exit` does after `current_task` has become a zombie: it wakes the parent
up, if that waits and is not the boot task. -/
inductive ExitWakes (s : Sched) (l : List Nat) : Sched → Prop where
  | nobody (h : s.cur.parentPid = 0 ∨
      ∀ p ∈ l, ¬((s.tasks p).pid = s.cur.parentPid ∧ (s.tasks p).waiting = true)) : ExitWakes s l s
  | parent {l₁ l₂ : List Nat} {p : Nat} (hl : l = l₁ ++ p :: l₂)
      (hpid : (s.tasks p).pid = s.cur.parentPid) (hwait : (s.tasks p).waiting = true)
      (hfirst : ∀ q ∈ l₁, ¬((s.tasks q).pid = s.cur.parentPid ∧ (s.tasks q).waiting = true)) :
      ExitWakes s l (s.wakeWaiting p)

theorem ExitWakes.keeps {s s' : Sched} {l : List Nat} (h : ExitWakes s l s') : KeepsLinks s s' := by
  cases h with
  | nobody => exact .refl s
  | parent => exact (s.stores_modify _ Pcb.woken).keeps rfl

/-- The steps, on a ring that leads from `current_task` through `l`. -/
inductive StepTo (s : Sched) (l : List Nat) : Op → Sched → Prop where
  | create {a : Nat} (ha : s.block a = .free) : StepTo s l (.create a) (s.taskCreateUser a)
  | add {a : Nat} (ha : s.block a = .created) : StepTo s l (.add a) (s.schedAdd a)
  | forkFailed : StepTo s l (.fork none) s
  | fork {a : Nat} (ha : s.block a = .free) : StepTo s l (.fork (some a)) (s.sysFork (some a)).2
  | yield {s' : Sched} (h : Scheduled s l s') : StepTo s l .yield s'
  | sleepZero {s' : Sched} (h : Scheduled s l s') : StepTo s l (.sleep 0) s'
  | sleep {s' : Sched} {ms : UInt32} (hms : ms ≠ 0)
      (h : Scheduled (s.sleepUntil (s.wakeAt ms)) l s') : StepTo s l (.sleep ms) s'
  /-- a zombie child is released -/
  | reap {l₁ l₂ : List Nat} {t : Nat} (hl : l = l₁ ++ t :: l₂)
      (hz : s.cur.zombieOf (s.tasks t).toTask = true) :
      StepTo s l .wait (s.reap ((s.current :: l₁).getLast (by simp)) t).leaveWait
  | noChild (h : ∀ c ∈ l, (s.tasks c).parentPid ≠ s.cur.pid) : StepTo s l .wait s.leaveWait
  /-- there are children, but no zombie among them -/
  | block {s' : Sched} {c : Nat} (hz : ∀ t ∈ l, s.cur.zombieOf (s.tasks t).toTask = false)
      (hc : c ∈ l) (hchild : (s.tasks c).parentPid = s.cur.pid)
      (h : Scheduled s.blockInWait l s') : StepTo s l .wait s'
  | exit {s₁ s' : Sched} {code : Option Int} (hboot : s.current ≠ bootTask)
      (hw : ExitWakes (s.becomeZombie code) l s₁) (h : Scheduled s₁ l s') :
      StepTo s l (.exit code) s'
  | kill {t : Nat} {pid sig : UInt32} (ht : t ∈ l) (hpid : (s.tasks t).pid = pid.toNat) :
      StepTo s l (.kill pid sig)
        (s.modify t fun p => { p with pendingSigs := p.pendingSigs ||| (1 : UInt32) <<< sig })
  | killNobody {pid sig : UInt32} : StepTo s l (.kill pid sig) s
  | setForeground {t : Option Nat} : StepTo s l (.setForeground t) { s with foreground := t }
  | ctrlc : StepTo s l .ctrlc s.schedCtrlc
  | tick {s' : Sched} (h : Scheduled (s.passed l) l s') : StepTo s l .tick s'

section

variable {s s' : Sched} {l : List Nat}

/-- An iteration of `sched_wait`: a zombie child is reaped, whose pid and exit code the
caller gets, or all tasks stay. -/
theorem Linked.schedWait (h : Linked s l) :
    ∃ r v, Settles l.length (fun fuel => s.schedWait fuel) (r, v) ∧
    StepTo s l .wait v ∧
    ((∃ l₁ t l₂, l = l₁ ++ t :: l₂ ∧ s.cur.zombieOf (s.tasks t).toTask ∧
        r = .reaped (asInt (s.tasks t).pid) (s.tasks t).exitCode ∧
        v = (s.reap ((s.current :: l₁).getLast (by simp)) t).leaveWait) ∨
      v.block = s.block ∧ (r = .noChild ∨ r = .blocked)) := by
  have hzombie := h.search fun t => s.cur.zombieOf t.toTask
  cases hz : findPrev (fun a => s.cur.zombieOf (s.tasks a).toTask) s.current l with
  | some r =>
    obtain ⟨l₁, l₂, hl, hzt, -, hprev⟩ := findPrev_eq_some hz
    rw [hz] at hzombie
    refine ⟨_, _, hzombie.bind (.pure _ _), ?_, .inl ⟨l₁, r.2, l₂, hl, hzt, rfl, by rw [hprev]⟩⟩
    rw [hprev]
    exact .reap hl hzt
  | none =>
    rw [hz] at hzombie
    have hchild := h.search fun t => t.parentPid == s.cur.pid
    cases hc : findPrev (fun a => (s.tasks a).parentPid == s.cur.pid) s.current l with
    | none =>
      rw [hc] at hchild
      refine ⟨_, _, hzombie.bind (hchild.bind (.pure _ _)), .noChild fun c hc' => ?_,
        .inr ⟨rfl, .inl rfl⟩⟩
      simpa using findPrev_eq_none.mp hc c hc'
    | some r =>
      obtain ⟨l₁, l₂, hl, hpid, -, -⟩ := findPrev_eq_some hc
      rw [hc] at hchild
      have hkeep : KeepsLinks s s.blockInWait := (s.stores_modify _ _).keeps rfl
      obtain ⟨v, hv, hsched⟩ := (h.keeps hkeep).schedule
      refine ⟨_, v, hzombie.bind (hchild.bind (hv.map fun s => (WaitResult.blocked, s))), ?_,
        .inr ⟨hsched.frame.1.trans hkeep.block, .inr rfl⟩⟩
      exact .block (findPrev_eq_none.mp hz) (show r.2 ∈ l by simp [hl]) (by simpa using hpid) hsched

theorem Linked.schedExit (h : Linked s l) (code : Option Int) (hboot : s.current ≠ bootTask) :
    ∃ v, Settles l.length (fun fuel => s.schedExit fuel code) v ∧ StepTo s l (.exit code) v := by
  have h1 : Linked (s.becomeZombie code) l := h.keeps ((s.stores_becomeZombie code).keeps rfl)
  unfold Sched.schedExit
  by_cases h0 : (s.becomeZombie code).cur.parentPid = 0
  · obtain ⟨v, hv, hsched⟩ := h1.schedule
    refine ⟨v, ?_, .exit hboot (.nobody (.inl h0)) hsched⟩
    simpa only [h0, ne_eq, not_true, if_false] using hv
  · simp only [ne_eq, h0, not_false_eq_true, if_true]
    have hparent := h1.search fun p => p.pid == (s.becomeZombie code).cur.parentPid && p.waiting
    cases hp : findPrev (fun a => ((s.becomeZombie code).tasks a).pid ==
        (s.becomeZombie code).cur.parentPid && ((s.becomeZombie code).tasks a).waiting)
        (s.becomeZombie code).current l with
    | none =>
      rw [hp] at hparent
      obtain ⟨v, hv, hsched⟩ := h1.schedule
      refine ⟨v, hparent.bind hv, .exit hboot (.nobody (.inr fun p hp' => ?_)) hsched⟩
      simpa using findPrev_eq_none.mp hp p hp'
    | some r =>
      obtain ⟨l₁, l₂, hl, hfound, hfirst, -⟩ := findPrev_eq_some hp
      rw [hp] at hparent
      simp only [Bool.and_eq_true, beq_iff_eq] at hfound
      have hkeep : KeepsLinks (s.becomeZombie code) ((s.becomeZombie code).wakeWaiting r.2) :=
        (Sched.stores_modify _ _ _).keeps rfl
      obtain ⟨v, hv, hsched⟩ := (h1.keeps hkeep).schedule
      exact ⟨v, hparent.bind hv,
        .exit hboot (.parent hl hfound.1 hfound.2 fun q hq => by simpa using hfirst q hq) hsched⟩

/-- **What a step can do**: on a ring, every step comes to an end, and `StepTo` lists the
ends. -/
theorem Linked.step_to (h : Linked s l) {op : Op} (hop : op.allowed s) :
    ∃ v, Settles l.length (fun fuel => s.step fuel op) v ∧ StepTo s l op v := by
  cases op with
  | create a =>
    simp only [Op.allowed, Bool.and_eq_true, beq_iff_eq] at hop
    exact ⟨_, .pure _ _, .create hop.2⟩
  | add a =>
    simp only [Op.allowed, Bool.and_eq_true, beq_iff_eq] at hop
    exact ⟨_, .pure _ _, .add hop.2⟩
  | fork child =>
    cases child with
    | none => exact ⟨_, .pure _ _, .forkFailed⟩
    | some a =>
      simp only [Op.allowed, Option.all_some, Bool.and_eq_true, beq_iff_eq] at hop
      exact ⟨_, .pure _ _, .fork hop.2⟩
  | yield =>
    obtain ⟨v, hv, hsched⟩ := h.schedule
    exact ⟨v, hv, .yield hsched⟩
  | sleep ms =>
    by_cases hms : ms = 0
    · subst hms
      obtain ⟨v, hv, hsched⟩ := h.schedule
      exact ⟨v, hv, .sleepZero hsched⟩
    · have hkeep : KeepsLinks s (s.sleepUntil (s.wakeAt ms)) := (s.stores_modify _ _).keeps rfl
      obtain ⟨v, hv, hsched⟩ := (h.keeps hkeep).schedule
      refine ⟨v, ?_, .sleep hms hsched⟩
      simp only [Sched.step, Sched.schedSleep, if_neg hms]
      exact hv
  | wait =>
    obtain ⟨r, v, hv, hstep, -⟩ := h.schedWait
    exact ⟨v, hv.map Prod.snd, hstep⟩
  | exit code =>
    simp only [Op.allowed, Bool.and_eq_true, bne_iff_ne] at hop
    exact h.schedExit code hop.2
  | kill pid sig =>
    have hsearch := h.search fun t => t.pid == pid.toNat
    refine ⟨_, (hsearch.map _).map Prod.snd, ?_⟩
    cases hfind : findPrev (fun a => (s.tasks a).pid == pid.toNat) s.current l with
    | none => exact .killNobody
    | some r =>
      obtain ⟨l₁, l₂, hl, hpid, -, -⟩ := findPrev_eq_some hfind
      exact .kill (by simp [hl]) (by simpa using hpid)
  | setForeground t => exact ⟨_, .pure _ _, .setForeground⟩
  | ctrlc => exact ⟨_, .pure _ _, .ctrlc⟩
  | tick =>
    obtain ⟨v, hv, hsched⟩ := (h.keeps (s.keeps_passed l)).schedule
    exact ⟨v, h.tickPasses.bind hv, .tick hsched⟩

theorem Linked.step_some (h : Linked s l) {op : Op} (hop : op.allowed s) {fuel : Nat}
    (hstep : s.step fuel op = some s') : StepTo s l op s' := by
  obtain ⟨v, hv, hto⟩ := h.step_to hop
  obtain rfl := hv.eq_of_some hstep
  exact hto

end

/-! ## the tasks after a step -/

/-- The task at `b` is the same in `s'`, up to its link. -/
def SameTask (s s' : Sched) (b : Nat) : Prop := ∃ n, s'.tasks b = { s.tasks b with next := n }

section

variable {s s' : Sched} {l : List Nat} {a b : Nat}

/-- `schedule` writes states only. -/
theorem Scheduled.task (hs : Scheduled s l s') (hcur : s.current ∉ l) (b : Nat) :
    s'.tasks b = { s.tasks b with state := (s'.tasks b).state } := by
  cases hs with
  | stay => rfl
  | switch hx =>
    rw [s.switchTo_tasks (fun heq => hcur (heq ▸ hx))]
    split
    · rename_i hb
      rw [hb]
    · split
      · rename_i hb
        rw [hb.1]
        rfl
      · rfl

/-- `schedule` takes the processor from a running task and gives it to one that can run. -/
theorem Scheduled.state (hs : Scheduled s l s') (hcur : s.current ∉ l) (b : Nat) :
    (s'.tasks b).state = (s.tasks b).state ∧ (b = s'.current → b = s.current) ∨
    b = s.current ∧ (s.tasks b).state = .running ∧ (s'.tasks b).state = .ready ∧ s'.current ≠ b ∨
    b = s'.current ∧ b ∈ l ∧ (s.tasks b).runnable ∧ (s'.tasks b).state = .running := by
  cases hs with
  | stay => simp
  | @switch x hx hrun =>
    have hne : x ≠ s.current := fun heq => hcur (heq ▸ hx)
    rw [s.switchTo_tasks hne]
    show _ ∧ (b = x → _) ∨ _ ∧ _ ∧ _ ∧ x ≠ b ∨ b = x ∧ _
    unfold Sched.cur
    grind

section

variable (s : Sched)

theorem Sched.modify_tasks (a : Nat) (f : Pcb → Pcb) (b : Nat) :
    (s.modify a f).tasks b = if b = a then f (s.tasks a) else s.tasks b :=
  update_apply _ _ _ _

theorem Sched.taskCreateUser_other (hb : b ≠ a) : (s.taskCreateUser a).tasks b = s.tasks b :=
  update_of_ne hb _ _

theorem Sched.taskCreateUser_self : (s.taskCreateUser a).tasks a =
    { pid := s.nextPid, state := .ready, parentPid := s.cur.pid, exitCode := 0, waiting := false,
      fdTable := clearFds (s.tasks a).fdTable, next := 0, wakeupTick := 0, pendingSigs := 0,
      cwd := rootPath, resume := .outside } :=
  update_self _ _ _

theorem Sched.schedAdd_other (hb : b ≠ a) : SameTask s (s.schedAdd a) b := by
  unfold SameTask Sched.schedAdd
  simp only [Sched.modify_tasks, if_neg hb]
  split
  · rename_i hbc
    subst hbc
    exact ⟨a, by rw [if_neg hb]⟩
  · exact ⟨_, rfl⟩

theorem Sched.schedAdd_self (ha : a ≠ s.current) :
    (s.schedAdd a).tasks a = { s.tasks a with state := .ready, next := s.next s.current } := by
  unfold Sched.schedAdd
  simp only [Sched.modify_tasks]
  rw [if_neg (show ¬a = (s.modify a _).current from ha)]
  exact if_pos trivial

theorem Sched.sysFork_other (hb : b ≠ a) : SameTask s (s.sysFork (some a)).2 b := by
  have hadd := Sched.schedAdd_other ((s.taskCreateUser a).inheritFds s.cur.fdTable a) hb
  unfold SameTask at hadd
  rw [((s.taskCreateUser a).stores_inheritFds s.cur.fdTable a).of_ne hb,
    s.taskCreateUser_other hb] at hadd
  exact hadd

/-- The child of `sys_fork`. -/
theorem Sched.sysFork_self (ha : a ≠ s.current) : (s.sysFork (some a)).2.tasks a =
    { pid := s.nextPid, state := .ready, parentPid := s.cur.pid, exitCode := 0, waiting := false,
      fdTable := fun i => if i < taskFdMax then s.cur.fdTable i else clearFds (s.tasks a).fdTable i,
      next := s.next s.current, wakeupTick := 0, pendingSigs := 0, cwd := rootPath, resume :=
        .outside } := by
  have hstore := (s.taskCreateUser a).stores_inheritFds s.cur.fdTable a
  have hadd := Sched.schedAdd_self ((s.taskCreateUser a).inheritFds s.cur.fdTable a) ha
  have hnext : ((s.taskCreateUser a).inheritFds s.cur.fdTable a).next s.current =
      s.next s.current := by
    unfold Sched.next
    rw [hstore.of_ne (Ne.symm ha), s.taskCreateUser_other (Ne.symm ha)]
  rw [hstore.self, s.taskCreateUser_self] at hadd
  rw [← hnext]
  exact hadd

theorem Sched.reap_task (prev t b : Nat) : SameTask s (s.reap prev t) b := by
  show ∃ n, (s.modify prev fun p => { p with next := s.next t }).tasks b = _
  rw [Sched.modify_tasks]
  split
  · rename_i hb
    exact ⟨s.next t, by rw [hb]⟩
  · exact ⟨_, rfl⟩

/-- A parent wakes up for a child that is a zombie after the first loop. -/
theorem Sched.firstPass_hasZombieChild (hl : (s.current :: l).Nodup) (hb : b ∈ s.current :: l) :
    (s.countTick.firstPass l).hasZombieChild (s.current :: l) b ↔ ∃ c ∈ s.current :: l,
      ((s.tasks c).ticked s.countTick.ticks).state = .zombie ∧
        (s.tasks c).parentPid = (s.tasks b).pid := by
  have htasks : ∀ c ∈ s.current :: l,
      (s.countTick.firstPass l).tasks c = (s.tasks c).ticked s.countTick.ticks := fun c hc =>
    (s.countTick.firstPass_tasks hl c).trans (if_pos hc)
  unfold Sched.hasZombieChild
  rw [List.any_eq_true]
  refine exists_congr fun c => and_congr_right fun hc => ?_
  rw [htasks b hb, htasks c hc, Task.zombieOf, Bool.and_eq_true, beq_iff_eq, beq_iff_eq,
    (Pcb.ticked_frame _ _).2.1, (Pcb.ticked_frame _ _).2.2.1]

end

/-- The second loop of `sched_tick` wakes the task at `b` up. -/
def Sched.WokenAt (s : Sched) (l : List Nat) (b : Nat) : Prop :=
  ((s.tasks b).ticked s.countTick.ticks).state = .blocked ∧ (s.tasks b).waiting = true ∧
    ∃ c ∈ s.current :: l, ((s.tasks c).ticked s.countTick.ticks).state = .zombie ∧
      (s.tasks c).parentPid = (s.tasks b).pid

/-- The tasks when `sched_tick` calls `schedule`. -/
theorem Sched.passed_cases (s : Sched) (hl : (s.current :: l).Nodup) (hb : b ∈ s.current :: l) :
    s.WokenAt l b ∧ (s.passed l).tasks b = ((s.tasks b).ticked s.countTick.ticks).woken ∨
      ¬s.WokenAt l b ∧ (s.passed l).tasks b = (s.tasks b).ticked s.countTick.ticks := by
  have hfirst := (s.countTick.firstPass_tasks hl b).trans (if_pos hb)
  have hcur : (s.countTick.firstPass l).current = s.current :=
    (s.countTick.keeps_firstPass l).current
  have hsecond := (s.countTick.firstPass l).secondPass_tasks (hcur ▸ hl) b
  have hwoken : (b ∈ s.current :: l ∧
      (((s.tasks b).ticked s.countTick.ticks).state = .blocked ∧
        ((s.tasks b).ticked s.countTick.ticks).waiting = true) ∧
      (s.countTick.firstPass l).hasZombieChild (s.current :: l) b = true) ↔ s.WokenAt l b := by
    rw [s.firstPass_hasZombieChild hl hb, (Pcb.ticked_frame _ _).2.2.2.1]
    simp only [hb, true_and, and_assoc, Sched.WokenAt]
  rw [hfirst, hcur] at hsecond
  by_cases hw : s.WokenAt l b
  · exact .inl ⟨hw, hsecond.trans (if_pos (hwoken.mpr hw))⟩
  · exact .inr ⟨hw, hsecond.trans (if_neg fun h => hw (hwoken.mp h))⟩

theorem Sched.passed_outside (s : Sched) (hl : (s.current :: l).Nodup) (hb : b ∉ s.current :: l) :
    (s.passed l).tasks b = s.tasks b := by
  have hcur : (s.countTick.firstPass l).current = s.current :=
    (s.countTick.keeps_firstPass l).current
  have hsecond := (s.countTick.firstPass l).secondPass_tasks (hcur ▸ hl) b
  rw [hcur, if_neg fun h => hb h.1, s.countTick.firstPass_tasks hl b] at hsecond
  exact hsecond.trans (if_neg hb)

end

/-- What a step does to the task at `b`; `sched` says whether it calls `schedule` then. -/
inductive TaskActs (s : Sched) (l : List Nat) : Op → Bool → Nat → Pcb → Prop where
  | same {op : Op} {sched : Bool} {b : Nat} (h : op = .tick → b ∉ s.current :: l) :
      TaskActs s l op sched b (s.tasks b)
  | add {a : Nat} : TaskActs s l (.add a) false a { s.tasks a with state := .ready }
  | sleep {ms : UInt32} (hms : ms ≠ 0) :
      TaskActs s l (.sleep ms) true s.current
        { s.cur with wakeupTick := s.wakeAt ms, state := .blocked }
  | leaveWait : TaskActs s l .wait false s.current { s.cur with resume := .outside }
  | block {c : Nat} (hz : ∀ t ∈ l, s.cur.zombieOf (s.tasks t).toTask = false)
      (hc : c ∈ l) (hchild : (s.tasks c).parentPid = s.cur.pid) :
      TaskActs s l .wait true s.current
        { s.cur with waiting := true, state := .blocked, resume := .inWait }
  | exit {code : Option Int} : TaskActs s l (.exit code) true s.current (s.cur.exited code)
  | parent {code : Option Int} {b : Nat} (hb : b ∈ l) (hpid : (s.tasks b).pid = s.cur.parentPid)
      (hwait : (s.tasks b).waiting = true) : TaskActs s l (.exit code) true b (s.tasks b).woken
  | kill {pid sig : UInt32} {b : Nat} (hb : b ∈ l) (hpid : (s.tasks b).pid = pid.toNat) :
      TaskActs s l (.kill pid sig) false b
        { s.tasks b with pendingSigs := (s.tasks b).pendingSigs ||| (1 : UInt32) <<< sig }
  | ctrlc {b : Nat} (hb : s.foreground = some b) :
      TaskActs s l .ctrlc false b
        { s.tasks b with pendingSigs := (s.tasks b).pendingSigs ||| sigkill }
  | tick {b : Nat} (hb : b ∈ s.current :: l) : TaskActs s l .tick true b ((s.passed l).tasks b)

/-- `TaskActs` for all tasks at once: `s₁` is the state in which `schedule` is called. -/
structure Acts (s : Sched) (l : List Nat) (op : Op) (sched : Bool) (s₁ : Sched) : Prop where
  current : s₁.current = s.current
  tasks : ∀ b, s.block b ≠ .free → ∃ t, TaskActs s l op sched b t ∧
    ∃ n, s₁.tasks b = { t with next := n }

section

variable {s s' : Sched} {l : List Nat} {op : Op} {b : Nat}

/-- A store into one task. -/
theorem Acts.of_stores {sched : Bool} {a : Nat} {t : Pcb} (hop : op ≠ .tick) (h : s.Stores a t s')
    (ht : TaskActs s l op sched a t) : Acts s l op sched s' where
  current := by rw [h]
  tasks := fun b _ => by
    by_cases hb : b = a
    · subst hb
      exact ⟨_, ht, t.next, h.self⟩
    · exact ⟨_, .same fun heq => absurd heq hop, _, h.of_ne hb⟩

theorem Acts.refl {sched : Bool} (hop : op ≠ .tick) : Acts s l op sched s :=
  ⟨rfl, fun _ _ => ⟨_, .same fun heq => absurd heq hop, _, rfl⟩⟩

theorem Sched.acts_becomeZombie {code : Option Int} {s₁ : Sched} (hl : Linked s l)
    (hw : ExitWakes (s.becomeZombie code) l s₁) : Acts s l (.exit code) true s₁ := by
  have hzombie := s.stores_becomeZombie code
  have hcur : (s.becomeZombie code).current = s.current := (hzombie.keeps rfl).current
  have hacts : Acts s l (.exit code) true (s.becomeZombie code) :=
    .of_stores (by simp) hzombie .exit
  cases hw with
  | nobody => exact hacts
  | @parent l₁ l₂ p hp hpid hwait =>
    have hmem : p ∈ l := by simp [hp]
    have hparent : (s.becomeZombie code).cur.parentPid = s.cur.parentPid := by
      unfold Sched.cur
      rw [hcur, hzombie.self]
      rfl
    have hp' : (s.becomeZombie code).tasks p = s.tasks p :=
      hzombie.of_ne fun heq => hl.cur_not_mem (heq ▸ hmem)
    rw [hp', hparent] at hpid
    rw [hp'] at hwait
    refine ⟨hcur, fun b hb => ?_⟩
    unfold Sched.wakeWaiting
    rw [Sched.modify_tasks]
    split
    · subst b
      rw [hp']
      exact ⟨_, .parent hmem hpid hwait, _, rfl⟩
    · exact hacts.tasks b hb

/-- **A step** acts on the tasks and then, maybe, calls `schedule`. -/
theorem StepTo.acts (hs : StepTo s l op s') (hl : Linked s l) :
    Acts s l op false s' ∨ ∃ s₁, Acts s l op true s₁ ∧ Scheduled s₁ l s' := by
  cases hs with
  | @create a ha =>
    refine .inl ⟨rfl, fun b hb => ⟨_, .same (by simp), _, s.taskCreateUser_other ?_⟩⟩
    exact fun heq => hb (heq ▸ ha)
  | @add a ha =>
    refine .inl ⟨rfl, fun b _ => ?_⟩
    have hcur : a ≠ s.current := fun heq => by simp [heq, hl.cur_queued] at ha
    by_cases hba : b = a
    · subst hba
      exact ⟨_, .add, _, s.schedAdd_self hcur⟩
    · exact ⟨_, .same (by simp), s.schedAdd_other hba⟩
  | forkFailed => exact .inl (.refl (by simp))
  | @fork a ha =>
    exact .inl ⟨rfl, fun b hb => ⟨_, .same (by simp), s.sysFork_other fun heq => hb (heq ▸ ha)⟩⟩
  | yield hsc => exact .inr ⟨s, .refl (by simp), hsc⟩
  | sleepZero hsc => exact .inr ⟨s, .refl (by simp), hsc⟩
  | sleep hms hsc => exact .inr ⟨_, .of_stores (by simp) (s.stores_modify _ _) (.sleep hms), hsc⟩
  | @reap l₁ l₂ t =>
    refine .inl ⟨rfl, fun b hb => ?_⟩
    obtain ⟨n, hn⟩ := s.reap_task ((s.current :: l₁).getLast (by simp)) t b
    unfold Sched.leaveWait
    rw [Sched.modify_tasks]
    split
    · subst b
      exact ⟨_, .leaveWait, n, by rw [hn]; rfl⟩
    · exact ⟨_, .same (by simp), n, hn⟩
  | noChild => exact .inl (.of_stores (by simp) (s.stores_modify _ _) .leaveWait)
  | block hz hc hchild hsc =>
    exact .inr ⟨_, .of_stores (by simp) (s.stores_modify _ _) (.block hz hc hchild), hsc⟩
  | exit _ hw hsc => exact .inr ⟨_, Sched.acts_becomeZombie hl hw, hsc⟩
  | kill ht hpid => exact .inl (.of_stores (by simp) (s.stores_modify _ _) (.kill ht hpid))
  | killNobody => exact .inl (.refl (by simp))
  | setForeground => exact .inl ⟨rfl, fun b _ => ⟨_, .same (by simp), _, rfl⟩⟩
  | ctrlc =>
    refine .inl ?_
    unfold Sched.schedCtrlc
    split
    · exact .refl (by simp)
    · rename_i t hfg
      split
      · exact .of_stores (by simp) (s.stores_modify _ _) (.ctrlc hfg)
      · exact .refl (by simp)
  | tick hsc =>
    refine .inr ⟨s.passed l, ⟨(s.keeps_passed l).current, fun b _ => ?_⟩, hsc⟩
    by_cases hb : b ∈ s.current :: l
    · exact ⟨_, .tick hb, _, rfl⟩
    · exact ⟨_, .same fun _ => hb, _, s.passed_outside hl.ring.nodup hb⟩

/-- One task over a whole step: `schedule` then keeps its state, or takes the processor
from it, or gives the processor to it. -/
theorem StepTo.task (hs : StepTo s l op s') (hl : Linked s l) (hb : s.block b ≠ .free) :
    ∃ sched t n st, TaskActs s l op sched b t ∧ s'.tasks b = { t with next := n, state := st } ∧
      (st = t.state ∧ (b = s'.current → b = s.current) ∨ t.state = .running ∧ st = .ready ∨
        b = s'.current ∧ t.runnable ∧ st = .running) := by
  obtain hacts | ⟨s₁, hacts, hsc⟩ := hs.acts hl
  · obtain ⟨t, ht, n, hn⟩ := hacts.tasks b hb
    exact ⟨_, t, n, t.state, ht, hn, .inl ⟨rfl, fun hc => hc.trans hacts.current⟩⟩
  · obtain ⟨t, ht, n, hn⟩ := hacts.tasks b hb
    have hcur : s₁.current ∉ l := hacts.current ▸ hl.cur_not_mem
    have htask := hsc.task hcur b
    have hstate := hsc.state hcur b
    rw [hn] at htask hstate
    refine ⟨_, t, n, (s'.tasks b).state, ht, htask, ?_⟩
    obtain ⟨heq, hc⟩ | ⟨-, hrun, heq, -⟩ | ⟨hc, -, hrun, heq⟩ := hstate
    · exact .inl ⟨heq, fun hc' => (hc hc').trans hacts.current⟩
    · exact .inr (.inl ⟨hrun, heq⟩)
    · exact .inr (.inr ⟨hc, hrun, heq⟩)

end

end AliOS
