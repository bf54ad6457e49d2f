import Mathlib.Algebra.BigOperators.Group.Finset.Piecewise
import AliOS.Pipe.Fifo
import AliOS.System

/-!
# AliOS.System.Ends

Pipe end counting.  `nwriters` and `nreaders` of a pipe are the numbers of descriptors in
the run queue that are its write and read ends, in every run in which `sched_wait` reaps
no task with an open end and no call stores into `pipes`.  Each routine works on the table
of one task: `Covers` has that table, the pipes, and the ends of all other tasks as the
part that stays.
-/

namespace AliOS

open Lib Function Finset

variable {i pi : Nat}

/-! ## the ends in a table -/

/-- An open descriptor of a pipe. -/
def TaskFd.isPipe (f : TaskFd) : Bool := f.used && f.type == .pipe

/-- An open write end (`w`) or read end of the pipe `pi`. -/
def TaskFd.isEnd (f : TaskFd) (pi : Nat) (w : Bool) : Bool :=
  f.isPipe && f.pipeIdx == pi && f.pipeWrite == w

/-- The number of write or read ends of the pipe `pi` in a table. -/
def endsIn (fds : Nat → TaskFd) (pi : Nat) (w : Bool) : Nat :=
  (Finset.filter (fun i => (fds i).isEnd pi w = true) (Finset.range taskFdMax)).card

/-- `nwriters` or `nreaders`. -/
def Pipe.count (p : Pipe) (w : Bool) : Nat := if w then p.nwriters else p.nreaders

theorem TaskFd.isEnd_of_not_isPipe {f : TaskFd} (h : f.isPipe = false) (pi : Nat) (w : Bool) :
    f.isEnd pi w = false := by
  simp [TaskFd.isEnd, h]

/-- One descriptor of a table is replaced. -/
theorem endsIn_update (hi : i < taskFdMax) (fds : Nat → TaskFd) (f : TaskFd) (pi : Nat) (w : Bool) :
    endsIn (update fds i f) pi w + ((fds i).isEnd pi w).toNat =
      endsIn fds pi w + (f.isEnd pi w).toNat := by
  have hsum : ∀ g : Nat → TaskFd, endsIn g pi w = ((g i).isEnd pi w).toNat +
      ∑ j ∈ (Finset.range taskFdMax).erase i, ((g j).isEnd pi w).toNat := by
    intro g
    rw [add_sum_erase _ (fun j => ((g j).isEnd pi w).toNat) (mem_range.mpr hi), endsIn,
      card_filter]
    exact sum_congr rfl fun j _ => by cases (g j).isEnd pi w <;> rfl
  have hrest : ∑ j ∈ (Finset.range taskFdMax).erase i, ((update fds i f j).isEnd pi w).toNat =
      ∑ j ∈ (Finset.range taskFdMax).erase i, ((fds j).isEnd pi w).toNat :=
    sum_congr rfl fun j hj => by rw [update_of_ne (ne_of_mem_erase hj)]
  rw [hsum, hsum fds, hrest, update_self]
  omega

theorem endsIn_eq_zero {fds : Nat → TaskFd} {w : Bool} :
    endsIn fds pi w = 0 ↔ ∀ i < taskFdMax, (fds i).isEnd pi w = false := by
  simp [endsIn, filter_eq_empty_iff]

/-! ## opening and closing ends -/

section

variable {f : TaskFd} {ps : Pipes}

theorem TaskFd.isEnd_other (hpi : pi ≠ f.pipeIdx) (w : Bool) : f.isEnd pi w = false := by
  simp [TaskFd.isEnd, Ne.symm hpi]

theorem TaskFd.count_closeEnd (hp : f.isPipe) (hi : f.pipeIdx < pipeMax)
    (h0 : 0 < (ps f.pipeIdx).count f.pipeWrite) (pi : Nat) (w : Bool) :
    (f.closeEnd ps pi).count w + (f.isEnd pi w).toNat = (ps pi).count w := by
  by_cases hpi : pi = f.pipeIdx
  · unfold TaskFd.closeEnd TaskFd.isEnd
    cases hw : f.pipeWrite <;> rw [hw] at h0 <;> cases w <;>
      simp_all [Pipe.count, pipeCloseRead, pipeCloseWrite] <;> omega
  · unfold TaskFd.closeEnd pipeCloseRead pipeCloseWrite
    rw [TaskFd.isEnd_other hpi]
    split <;> split <;> simp [hpi]

theorem TaskFd.count_openEnd (hp : f.isPipe) (hi : f.pipeIdx < pipeMax) (pi : Nat) (w : Bool) :
    (f.openEnd ps pi).count w = (ps pi).count w + (f.isEnd pi w).toNat := by
  by_cases hpi : pi = f.pipeIdx
  · subst hpi
    unfold TaskFd.openEnd TaskFd.isEnd
    rw [hp]
    cases f.pipeWrite <;> cases w <;> simp [Pipe.count, pipeOpenRead, pipeOpenWrite, hi]
  · unfold TaskFd.openEnd pipeOpenRead pipeOpenWrite
    rw [TaskFd.isEnd_other hpi]
    split <;> simp [hpi]

end

/-! ## one task and the rest -/

/-- The pipes count the ends in the table `fds` and `rest` others, and the open
descriptors of pipes stand for pipes. -/
structure Covers (fds : Nat → TaskFd) (ps : Pipes) (rest : Nat → Bool → Nat) : Prop where
  count : ∀ pi < pipeMax, ∀ w, (ps pi).count w = endsIn fds pi w + rest pi w
  inRange : ∀ i < taskFdMax, (fds i).isPipe = true → (fds i).pipeIdx < pipeMax

section

variable {fds : Nat → TaskFd} {ps ps' : Pipes} {rest : Nat → Bool → Nat}

section

variable (h : Covers fds ps rest)

include h

/-- An end that is open is counted. -/
theorem Covers.count_pos (hi : i < taskFdMax) (hp : (fds i).isPipe) :
    0 < (ps (fds i).pipeIdx).count (fds i).pipeWrite := by
  rw [h.count _ (h.inRange i hi hp)]
  have hne : endsIn fds (fds i).pipeIdx (fds i).pipeWrite ≠ 0 := fun h0 => by
    have hend := endsIn_eq_zero.mp h0 i hi
    simp [TaskFd.isEnd, hp] at hend
  omega

/-- A descriptor is replaced, and the counters follow. -/
theorem Covers.set (hi : i < taskFdMax) {f : TaskFd}
    (hcount : ∀ pi < pipeMax, ∀ w, (ps' pi).count w + ((fds i).isEnd pi w).toNat =
      (ps pi).count w + (f.isEnd pi w).toNat)
    (hf : f.isPipe → f.pipeIdx < pipeMax) : Covers (update fds i f) ps' rest where
  count := fun pi hpi w => by
    have hends := endsIn_update hi fds f pi w
    have hold := h.count pi hpi w
    have hnew := hcount pi hpi w
    omega
  inRange := fun j hj => by
    by_cases hji : j = i
    · subst hji
      simpa using hf
    · rw [update_of_ne hji]
      exact h.inRange j hj

/-- Neither the old descriptor nor the new one is an open end. -/
theorem Covers.setOther (hi : i < taskFdMax) {f : TaskFd}
    (hold : (fds i).isPipe = false) (hf : f.isPipe = false) : Covers (update fds i f) ps rest :=
  h.set hi (fun pi _ w => by simp [TaskFd.isEnd_of_not_isPipe hold, TaskFd.isEnd_of_not_isPipe hf])
    (fun hp => by simp [hf] at hp)

/-- An open end is closed. -/
theorem Covers.closeEnd (hi : i < taskFdMax) (hp : (fds i).isPipe) :
    Covers (update fds i { fds i with used := false }) ((fds i).closeEnd ps) rest := by
  have hclosed : ({ fds i with used := false } : TaskFd).isPipe = false := rfl
  refine h.set hi (fun pi _ w => ?_) (fun hp' => by simp [hclosed] at hp')
  rw [TaskFd.count_closeEnd hp (h.inRange i hi hp) (h.count_pos hi hp),
    TaskFd.isEnd_of_not_isPipe hclosed]
  rfl

/-- Pipes with the same counters. -/
theorem Covers.congr (hps : ∀ pi < pipeMax, ∀ w, (ps' pi).count w = (ps pi).count w) :
    Covers fds ps' rest :=
  ⟨fun pi hpi w => (hps pi hpi w).trans (h.count pi hpi w), h.inRange⟩

theorem Covers.releaseFd (hi : i < taskFdMax) :
    Covers (AliOS.releaseFd i (fds, ps)).1 (AliOS.releaseFd i (fds, ps)).2 rest := by
  unfold AliOS.releaseFd
  split
  · rename_i hp
    exact h.closeEnd hi hp
  · exact h

/-- `release_pipe_fds`. -/
theorem Covers.releaseFds :
    Covers (forRange AliOS.releaseFd 0 taskFdMax (fds, ps)).1
      (forRange AliOS.releaseFd 0 taskFdMax (fds, ps)).2 rest :=
  forRange_induct (fun _ (st : (Nat → TaskFd) × Pipes) => Covers st.1 st.2 rest) h
    fun _ _ _ hi hst => hst.releaseFd (by omega)

/-- The descriptors a child of `sys_fork` inherits into an empty table. -/
theorem Covers.inheritFds {parent : Nat → TaskFd}
    (hempty : ∀ i < taskFdMax, (fds i).used = false)
    (hparent : ∀ i < taskFdMax, (parent i).isPipe → (parent i).pipeIdx < pipeMax) :
    Covers (forRange (inheritFd parent) 0 taskFdMax (fds, ps)).1
      (forRange (inheritFd parent) 0 taskFdMax (fds, ps)).2 rest := by
  refine (forRange_induct (fun n (st : (Nat → TaskFd) × Pipes) =>
    Covers st.1 st.2 rest ∧ ∀ i < taskFdMax, n ≤ i → (st.1 i).used = false)
    ⟨h, fun i hi _ => hempty i hi⟩ fun n st _ hn hst => ⟨?_, fun i hi hni => ?_⟩).1
  · have hold : (st.1 n).isPipe = false := by
      simp [TaskFd.isPipe, hst.2 n (by omega) le_rfl]
    unfold inheritFd
    split
    · rename_i hp
      have hn := hparent n (by omega) hp
      refine hst.1.set (by omega) (fun pi _ w => ?_) fun _ => hn
      rw [TaskFd.count_openEnd hp hn, TaskFd.isEnd_of_not_isPipe hold]
      rfl
    · rename_i hp
      exact hst.1.setOther (by omega) hold (Bool.not_eq_true _ |>.mp hp)
  · show (update st.1 n (parent n) i).used = false
    rw [update_of_ne (by omega)]
    exact hst.2 i hi (by omega)

end

end

/-! ## the run queue -/

/-- The counters of the pipes are the numbers of ends in the run queue, whose open
descriptors of pipes stand for pipes.  A task that is not in the queue yet has no open
descriptor. -/
structure Ends (s : Sched) (queue : Finset Nat) : Prop where
  mem : ∀ a, a ∈ queue ↔ s.block a = .queued
  count : ∀ pi < pipeMax, ∀ w, (s.pipes pi).count w = ∑ a ∈ queue, endsIn (s.tasks a).fdTable pi w
  inRange : ∀ a ∈ queue, ∀ i < taskFdMax, ((s.tasks a).fdTable i).isPipe = true →
    ((s.tasks a).fdTable i).pipeIdx < pipeMax
  fresh : ∀ a, s.block a = .created → ∀ i < taskFdMax, ((s.tasks a).fdTable i).used = false

/-- `s'` has the same tasks, descriptors and pipes. -/
structure SameFds (s s' : Sched) : Prop where
  block : s'.block = s.block
  pipes : s'.pipes = s.pipes
  fds : ∀ a, (s'.tasks a).fdTable = (s.tasks a).fdTable

section

variable {s s' s'' : Sched} {l : List Nat} {queue : Finset Nat} {a : Nat}

theorem SameFds.refl (s : Sched) : SameFds s s := ⟨rfl, rfl, fun _ => rfl⟩

theorem SameFds.trans (h : SameFds s s') (h' : SameFds s' s'') : SameFds s s'' :=
  ⟨h'.block.trans h.block, h'.pipes.trans h.pipes, fun a => (h'.fds a).trans (h.fds a)⟩

theorem Sched.sameFds_modify (s : Sched) (a : Nat) {f : Pcb → Pcb}
    (hf : (f (s.tasks a)).fdTable = (s.tasks a).fdTable) : SameFds s (s.modify a f) :=
  ⟨rfl, rfl, fun b => by
    rw [Sched.modify_tasks]
    split
    · rename_i hb
      rw [hf, hb]
    · rfl⟩

theorem Ends.same (h : Ends s queue) (hs : SameFds s s') : Ends s' queue := by
  refine ⟨fun a => ?_, fun pi hpi w => ?_, fun a ha i => ?_, fun a ha i => ?_⟩
  · rw [hs.block]
    exact h.mem a
  · rw [hs.pipes, h.count pi hpi w]
    exact sum_congr rfl fun a _ => by rw [hs.fds]
  · rw [hs.fds]
    exact h.inRange a ha i
  · rw [hs.fds]
    exact h.fresh a (hs.block ▸ ha) i

/-- **One task changes its table** and the pipes with it. -/
theorem Ends.store (h : Ends s queue) (ha : a ∈ queue) (hblock : s'.block = s.block)
    (hother : ∀ b, b ≠ a → (s'.tasks b).fdTable = (s.tasks b).fdTable)
    (hkeep : ∀ rest, Covers (s.tasks a).fdTable s.pipes rest →
      Covers (s'.tasks a).fdTable s'.pipes rest) : Ends s' queue := by
  have hcovers := hkeep _ ⟨fun pi hpi w => (h.count pi hpi w).trans
    (add_sum_erase queue (fun b => endsIn (s.tasks b).fdTable pi w) ha).symm, h.inRange a ha⟩
  refine ⟨fun b => ?_, fun pi hpi w => ?_, fun b hb => ?_, fun b hb => ?_⟩
  · rw [hblock]
    exact h.mem b
  · rw [hcovers.count pi hpi w, ← add_sum_erase queue _ ha]
    congr 1
    exact sum_congr rfl fun b hb => by rw [hother b (ne_of_mem_erase hb)]
  · by_cases hba : b = a
    · rw [hba]
      exact hcovers.inRange
    · rw [hother b hba]
      exact h.inRange b hb
  · rw [hblock] at hb
    rw [hother b fun heq => by simp [heq, (h.mem a).mp ha] at hb]
    exact h.fresh b hb

/-- A task enters the queue. -/
theorem Ends.enter (h : Ends s queue) (ha : s.block a ≠ .queued)
    (hblock : s'.block = update s.block a .queued)
    (hother : ∀ b, b ≠ a → (s'.tasks b).fdTable = (s.tasks b).fdTable)
    (hnew : Covers (s'.tasks a).fdTable s'.pipes fun pi w => (s.pipes pi).count w) :
    Ends s' (insert a queue) := by
  have hnot : a ∉ queue := fun hmem => ha ((h.mem a).mp hmem)
  refine ⟨fun b => ?_, fun pi hpi w => ?_, fun b hb => ?_, fun b hb => ?_⟩
  · rw [mem_insert, hblock, update_apply, h.mem b]
    split <;> simp_all
  · rw [hnew.count pi hpi w, h.count pi hpi w, sum_insert hnot]
    congr 1
    exact sum_congr rfl fun b hb => by rw [hother b fun heq => hnot (heq ▸ hb)]
  · by_cases hba : b = a
    · rw [hba]
      exact hnew.inRange
    · rw [hother b hba]
      exact h.inRange b (mem_of_mem_insert_of_ne hb hba)
  · rw [hblock, update_apply] at hb
    split at hb
    · simp at hb
    · rename_i hba
      rw [hother b hba]
      exact h.fresh b hb

/-- A task without open ends leaves the queue. -/
theorem Ends.leave (h : Ends s queue) (hblock : s'.block = update s.block a .free)
    (hfds : ∀ b, (s'.tasks b).fdTable = (s.tasks b).fdTable) (hpipes : s'.pipes = s.pipes)
    (hno : ∀ i < taskFdMax, ((s.tasks a).fdTable i).isPipe = false) : Ends s' (queue.erase a) := by
  refine ⟨fun b => ?_, fun pi hpi w => ?_, fun b hb => ?_, fun b hb => ?_⟩
  · rw [mem_erase, hblock, update_apply, h.mem b]
    split <;> simp_all
  · have hzero : endsIn (s.tasks a).fdTable pi w = 0 :=
      endsIn_eq_zero.mpr fun i hi => TaskFd.isEnd_of_not_isPipe (hno i hi) pi w
    simp only [hfds, hpipes]
    rw [h.count pi hpi w, sum_erase queue hzero]
  · rw [hfds]
    exact h.inRange b (mem_of_mem_erase hb)
  · rw [hblock, update_apply] at hb
    split at hb
    · simp at hb
    · rw [hfds]
      exact h.fresh b hb

/-! ## steps of the scheduler -/

theorem Ends.taskCreateUser (h : Ends s queue) (ha : s.block a = .free) :
    Ends (s.taskCreateUser a) queue := by
  have hnot : a ∉ queue := fun hmem => by simp [(h.mem a).mp hmem] at ha
  have hother : ∀ b ∈ queue, (s.taskCreateUser a).tasks b = s.tasks b := fun b hb =>
    s.taskCreateUser_other fun heq => hnot (heq ▸ hb)
  refine ⟨fun b => ?_, fun pi hpi w => ?_, fun b hb => ?_, fun b hb => ?_⟩
  · show b ∈ queue ↔ update s.block a .created b = .queued
    rw [update_apply, h.mem b]
    split <;> simp_all
  · exact (h.count pi hpi w).trans (sum_congr rfl fun b hb => by rw [hother b hb])
  · rw [hother b hb]
    exact h.inRange b hb
  · by_cases hba : b = a
    · subst hba
      rw [s.taskCreateUser_self]
      exact fun _ _ => rfl
    · rw [s.taskCreateUser_other hba]
      refine h.fresh b ?_
      exact (update_of_ne hba _ _).symm.trans hb

theorem SameTask.fdTable (h : SameTask s s' a) : (s'.tasks a).fdTable = (s.tasks a).fdTable := by
  obtain ⟨n, hn⟩ := h
  rw [hn]

/-- A table without open descriptors. -/
theorem Covers.empty {fds : Nat → TaskFd} (hempty : ∀ i < taskFdMax, (fds i).used = false)
    (ps : Pipes) :
    Covers fds ps fun pi w => (ps pi).count w := by
  have hno : ∀ i < taskFdMax, (fds i).isPipe = false :=
    fun i hi => by simp [TaskFd.isPipe, hempty i hi]
  refine ⟨fun pi _ w => ?_, fun i hi hp => by simp [hno i hi] at hp⟩
  rw [endsIn_eq_zero.mpr fun i hi => TaskFd.isEnd_of_not_isPipe (hno i hi) pi w, Nat.zero_add]

section

variable (h : Ends s queue)

include h

theorem Ends.schedAdd (ha : s.block a = .created) (hcur : a ≠ s.current) :
    Ends (s.schedAdd a) (insert a queue) := by
  refine h.enter (by simp [ha]) rfl (fun b hb => (s.schedAdd_other hb).fdTable) ?_
  rw [s.schedAdd_self hcur]
  exact .empty (h.fresh a ha) s.pipes

theorem Ends.sysFork (hcurrent : s.current ∈ queue) (ha : s.block a = .free) :
    Ends (s.sysFork (some a)).2 (insert a queue) := by
  have hcur : a ≠ s.current := fun heq => by simp [heq, (h.mem _).mp hcurrent] at ha
  have hfds : ((s.sysFork (some a)).2.tasks a).fdTable =
      (forRange (inheritFd s.cur.fdTable) 0 taskFdMax (clearFds (s.tasks a).fdTable,
        s.pipes)).1 := by
    rw [s.sysFork_self hcur]
    exact (funext (inheritFds_table _ _ _)).symm
  have hpipes : (s.sysFork (some a)).2.pipes =
      (forRange (inheritFd s.cur.fdTable) 0 taskFdMax (clearFds (s.tasks a).fdTable,
        s.pipes)).2 := by
    rfl
  refine h.enter (by simp [ha]) (s.sysFork_block a) (fun b hb => (s.sysFork_other hb).fdTable) ?_
  rw [hfds, hpipes]
  exact (Covers.empty (fun _ _ => rfl) s.pipes).inheritFds (fun _ _ => rfl) (h.inRange _ hcurrent)

theorem Ends.releasePipeFds (ha : a ∈ queue) : Ends (s.releasePipeFds a) queue := by
  refine h.store ha rfl (fun b hb => ?_) fun rest hcovers => ?_
  · rw [(s.stores_releasePipeFds a).of_ne hb]
  · have hfds : ((s.releasePipeFds a).tasks a).fdTable =
        (forRange releaseFd 0 taskFdMax ((s.tasks a).fdTable, s.pipes)).1 := by
      rw [(s.stores_releasePipeFds a).self]
      exact (funext (releaseFds_table _ _)).symm
    rw [hfds]
    exact hcovers.releaseFds

theorem Ends.becomeZombie (hcur : s.current ∈ queue) (code : Option Int) :
    Ends (s.becomeZombie code) queue := by
  have hcode :
      SameFds s (s.modify s.current fun t => { t with exitCode := code.getD t.exitCode }) :=
    s.sameFds_modify _ rfl
  unfold Sched.becomeZombie
  exact ((h.same hcode).releasePipeFds hcur).same (Sched.sameFds_modify _ s.current rfl)

theorem Ends.tickVisit (ha : a ∈ queue) (now : Nat) : Ends (s.tickVisit now a) queue := by
  have hwake : SameFds s (s.modify a (Pcb.wakeSleeper now)) := by
    refine s.sameFds_modify a ?_
    obtain heq | ⟨-, -, heq⟩ := (s.tasks a).wakeSleeper_cases now <;> rw [heq]
  unfold Sched.tickVisit Sched.deliverKill
  split
  · have hclear : SameFds (s.modify a (Pcb.wakeSleeper now))
        ((s.modify a (Pcb.wakeSleeper now)).modify a
        fun t => { t with pendingSigs := t.pendingSigs &&& ~~~sigkill }) := Sched.sameFds_modify _ a
          rfl
    exact (((h.same hwake).same hclear).releasePipeFds ha).same (Sched.sameFds_modify _ a rfl)
  · exact h.same hwake

/-- The first loop of `sched_tick`. -/
theorem Ends.foldl_tickVisit {m : List Nat} (hm : ∀ a ∈ m, a ∈ queue) (now : Nat) :
    Ends (m.foldl (fun s' a => s'.tickVisit now a) s) queue := by
  induction m generalizing s with
  | nil => exact h
  | cons a m ih =>
    obtain ⟨ha, hm⟩ := List.forall_mem_cons.mp hm
    exact ih (h.tickVisit ha now) hm

end

theorem SameFds.foldl {g : Nat → Sched → Sched} (hg : ∀ a s, SameFds s (g a s))
    (m : List Nat) (s : Sched) :
    SameFds s (m.foldl (fun s' a => g a s') s) := by
  induction m generalizing s with
  | nil => exact .refl s
  | cons a m ih => exact (hg a s).trans (ih (g a s))

theorem Sched.sameFds_wakeWaiting (s : Sched) (a : Nat) : SameFds s (s.wakeWaiting a) :=
  s.sameFds_modify a rfl

theorem Ends.passed (h : Ends s queue) (hl : Linked s l) : Ends (s.passed l) queue := by
  have hcount : Ends s.countTick queue := h.same ⟨rfl, rfl, fun _ => rfl⟩
  have hfirst : Ends (s.countTick.firstPass l) queue :=
    hcount.foldl_tickVisit (fun a ha => (h.mem a).mpr ((hl.queued a).mp ha)) _
  refine hfirst.same (SameFds.foldl (fun a s' => ?_) _ _)
  unfold Sched.wakeParentIn
  split
  · exact s'.sameFds_wakeWaiting a
  · exact .refl s'

/-- **A step of the scheduler** keeps the count, unless it reaps a task with an open
end. -/
theorem StepTo.ends {op : Op} (hs : StepTo s l op s') (hl : Linked s l) (h : Ends s queue)
    (hreap : op = .wait → ∀ t ∈ queue, s.cur.zombieOf (s.tasks t).toTask →
      ∀ i < taskFdMax, ((s.tasks t).fdTable i).isPipe = false) : ∃ queue', Ends s' queue' := by
  have hcur : s.current ∈ queue := (h.mem _).mpr hl.cur_queued
  have hsched : ∀ {s₁ : Sched}, Ends s₁ queue → s₁.current = s.current → Scheduled s₁ l s' →
      ∃ queue', Ends s' queue' := fun h1 hc hsc => ⟨queue, h1.same
        ⟨hsc.frame.1, hsc.frame.2.2.2.1, fun a => by rw [hsc.task (hc ▸ hl.cur_not_mem) a]⟩⟩
  cases hs with
  | create ha => exact ⟨queue, h.taskCreateUser ha⟩
  | @add a ha => exact ⟨_, h.schedAdd ha fun heq => by simp [heq, hl.cur_queued] at ha⟩
  | forkFailed => exact ⟨queue, h⟩
  | fork ha => exact ⟨_, h.sysFork hcur ha⟩
  | yield hsc => exact hsched h rfl hsc
  | sleepZero hsc => exact hsched h rfl hsc
  | sleep _ hsc => exact hsched (h.same (s.sameFds_modify _ rfl)) rfl hsc
  | @reap l₁ l₂ t hleq hz =>
    have ht : t ∈ queue := (h.mem t).mpr ((hl.queued t).mp (by simp [hleq]))
    have hleave : SameFds (s.reap ((s.current :: l₁).getLast (by simp)) t)
        (s.reap ((s.current :: l₁).getLast (by simp)) t).leaveWait := Sched.sameFds_modify _ _ rfl
    exact ⟨_, (h.leave rfl (fun b => (s.reap_task _ t b).fdTable) rfl (hreap rfl t ht hz)).same
      hleave⟩
  | noChild => exact ⟨queue, h.same (s.sameFds_modify _ rfl)⟩
  | block _ _ _ hsc => exact hsched (h.same (s.sameFds_modify _ rfl)) rfl hsc
  | @exit s₁ _ code _ hw hsc =>
    have hzombie := h.becomeZombie hcur code
    cases hw with
    | nobody => exact hsched hzombie rfl hsc
    | parent => exact hsched (hzombie.same (Sched.sameFds_wakeWaiting _ _)) rfl hsc
  | kill => exact ⟨queue, h.same (s.sameFds_modify _ rfl)⟩
  | killNobody => exact ⟨queue, h⟩
  | setForeground => exact ⟨queue, h.same ⟨rfl, rfl, fun _ => rfl⟩⟩
  | ctrlc =>
    refine ⟨queue, ?_⟩
    unfold Sched.schedCtrlc
    split
    · exact h
    · split
      · exact h.same (s.sameFds_modify _ rfl)
      · exact h
  | tick hsc => exact hsched (h.passed hl) (s.keeps_passed l).current hsc

end

end AliOS
