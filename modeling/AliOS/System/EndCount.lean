import AliOS.Cow
import AliOS.System.Ends

/-!
# AliOS.System.EndCount

The calls of a task keep the count of pipe ends, as long as they store to user memory
only, and with them every run does: a pipe is allocated again only when no descriptor
refers to it, a reader is told the end of the data only when no write end is open, and a
writer of a broken pipe only when no read end is.
-/

namespace AliOS

open Lib Function Option

variable {r : SysResult × Kernel} {pi fd buf len n rfd wfd : Nat}

/-! ## transfers -/

section

variable {buf len n : Nat} {p : Pipe} {m : Machine}

theorem pipeRead_count {r : (Nat × Bool) × Pipe × Machine} (h : pipeRead buf len n p m = some r)
    (w : Bool) :
    r.2.1.count w = p.count w := by
  fun_induction pipeRead buf len n p m with
  | case1 n p m _ _ =>
    cases h
    rfl
  | case2 n p m _ _ take ih =>
    obtain ⟨st, hdrain, hrest⟩ := bind_eq_some_iff.mp h
    refine (ih st hrest).trans
      (forRangeM_induct (fun _ (x : Pipe × Machine) => x.1.count w = p.count w) hdrain rfl ?_)
    intro i x x' _ _ hx hstep
    obtain ⟨m', -, rfl⟩ := map_eq_some_iff.mp hstep
    exact hx
  | case3 n p m _ =>
    cases h
    rfl

theorem pipeReadTurn_count {r : Turn × Pipe × Machine} (h : pipeReadTurn buf len n p m = some r)
    (w : Bool) :
    r.2.1.count w = p.count w := by
  unfold pipeReadTurn at h
  split at h
  · cases h
    rfl
  · obtain ⟨st, hdrain, rfl⟩ := map_eq_some_iff.mp h
    refine forRangeM_induct (fun _ (x : (Pipe × Machine) × List UInt8) => x.1.1.count w = p.count w)
      hdrain rfl ?_
    intro i x x' _ _ hx hlog
    obtain ⟨pm, hstep, rfl⟩ := map_eq_some_iff.mp hlog
    obtain ⟨m', -, rfl⟩ := map_eq_some_iff.mp hstep
    exact hx

theorem pipeWriteTurn_count {r : Turn × Pipe} (h : pipeWriteTurn buf len n p m = some r)
    (w : Bool) :
    r.2.count w = p.count w := by
  unfold pipeWriteTurn at h
  split at h
  · cases h
    rfl
  · split at h
    · cases h
      rfl
    · obtain ⟨st, hfill, rfl⟩ := map_eq_some_iff.mp h
      refine forRangeM_induct (fun _ (x : Pipe × List UInt8) => x.1.count w = p.count w)
        hfill rfl ?_
      intro i x x' _ _ hx hstep
      obtain ⟨b, -, rfl⟩ := map_eq_some_iff.mp hstep
      exact hx

/-- The end of the data is reported when there are no writers. -/
theorem pipeReadTurn_stopped {r : Pipe × Machine}
    (h : pipeReadTurn buf len n p m = some (.stopped, r)) :
    p.count true = 0 := by
  unfold pipeReadTurn at h
  split at h
  · by_cases hw : p.nwriters = 0
    · exact hw
    · simp [hw] at h
  · obtain ⟨st, -, hst⟩ := map_eq_some_iff.mp h
    simp at hst

/-- A broken pipe is reported when there are no readers. -/
theorem pipeWriteTurn_stopped {r : Pipe} (h : pipeWriteTurn buf len n p m = some (.stopped, r)) :
    p.count false = 0 := by
  unfold pipeWriteTurn at h
  split at h
  · assumption
  · split at h
    · simp at h
    · obtain ⟨st, -, hst⟩ := map_eq_some_iff.mp h
      simp at hst

end

/-! ## calls -/

/-- A call keeps the count, with any ends of other tasks. -/
def Kernel.KeepsEnds (k k' : Kernel) : Prop :=
  ∀ rest, Covers k.current.fdTable k.pipes rest → Covers k'.current.fdTable k'.pipes rest

section

variable {k k' k'' : Kernel}

theorem Kernel.KeepsEnds.refl (k : Kernel) : k.KeepsEnds k := fun _ h => h

theorem Kernel.KeepsEnds.trans (h : k.KeepsEnds k') (h' : k'.KeepsEnds k'') : k.KeepsEnds k'' :=
  fun rest hc => h' rest (h rest hc)

/-- A pipe after a transfer. -/
theorem Kernel.keepsEnds_pipe {p : Pipe} {m : Machine}
    (hp : ∀ w, p.count w = (k.pipes pi).count w) :
    k.KeepsEnds { k with pipes := update k.pipes pi p, machine := m } := fun rest h =>
  h.congr fun q _ w => by
    dsimp only
    rw [update_apply]
    split
    · rename_i hq
      rw [hp, hq]
    · rfl

/-- A descriptor that is no open end before and after. -/
theorem Kernel.keepsEnds_setFd {f : TaskFd} (hfd : fd < taskFdMax)
    (hold : (k.current.fdTable fd).isPipe = false)
    (hf : f.isPipe = false) : k.KeepsEnds (k.setFd fd f) :=
  fun _ h => h.setOther hfd hold hf

theorem Kernel.keepsEnds_fdCloseOne {i : Nat} (hi : i < taskFdMax) :
    k.KeepsEnds (k.fdCloseOne i) := by
  unfold Kernel.fdCloseOne
  dsimp only
  split
  · exact .refl k
  · rename_i hused
    simp only [Bool.not_eq_true', Bool.not_eq_false] at hused
    split
    · rename_i htype
      exact fun rest h => h.closeEnd hi (by simpa [TaskFd.isPipe, hused] using htype)
    · rename_i htype
      exact k.keepsEnds_setFd hi (by simpa [TaskFd.isPipe, hused] using htype) rfl

theorem Kernel.keepsEnds_execClose (k : Kernel) : k.KeepsEnds k.execClose :=
  forRange_induct (fun _ k' => k.KeepsEnds k') (.refl k)
    fun _ _ _ hi hk => hk.trans (Kernel.keepsEnds_fdCloseOne (by simp [taskFdMax] at hi ⊢; omega))

theorem keepsEnds_sysClose (k : Kernel) (fd : Int) : k.KeepsEnds (sysClose k fd).2 := by
  unfold sysClose
  split
  · exact .refl k
  · split
    · exact .refl k
    · exact Kernel.keepsEnds_fdCloseOne (by omega)

theorem freeFd_spec {fdTable : Nat → TaskFd} (h : freeFd fdTable = some fd) :
    3 ≤ fd ∧ fd < taskFdMax ∧ (fdTable fd).used = false := by
  have hmem := List.mem_of_find?_eq_some h
  have hused := List.find?_some h
  simp only [taskFdMax, List.mem_range'_1] at hmem
  simp only [Bool.not_eq_true'] at hused
  exact ⟨hmem.1, hmem.2, hused⟩

theorem Kernel.keepsEnds_openFile {idx : Int} {offset : Nat} (hfd : fd < taskFdMax)
    (hused : (k.current.fdTable fd).used = false) : k.KeepsEnds (k.openFile fd idx offset) :=
  k.keepsEnds_setFd hfd (by simp [TaskFd.isPipe, hused]) rfl

theorem keepsEnds_sysOpen (k : Kernel) (cwd name : CStr) : k.KeepsEnds (sysOpen k cwd name).2 := by
  unfold sysOpen
  split
  · exact .refl k
  · rename_i fd hfd
    obtain ⟨-, hlt, hused⟩ := freeFd_spec hfd
    dsimp only
    split
    · exact .refl k
    · exact Kernel.keepsEnds_openFile hlt hused

theorem keepsEnds_sysOpenW (k : Kernel) (cwd uname : CStr) (append : Bool) :
    k.KeepsEnds (sysOpenW k cwd uname append).2 := by
  unfold sysOpenW
  split
  · exact .refl k
  · rename_i fd hfd
    obtain ⟨-, hlt, hused⟩ := freeFd_spec hfd
    dsimp only
    split
    · exact fun _ h => h
    · split
      · exact fun _ h => h
      · exact Kernel.keepsEnds_openFile hlt hused

theorem Kernel.keepsEnds_pipeReadOn (h : k.pipeReadOn pi buf len n = some r) : k.KeepsEnds r.2 := by
  unfold Kernel.pipeReadOn at h
  split at h
  · obtain ⟨x, hread, rfl⟩ := map_eq_some_iff.mp h
    exact Kernel.keepsEnds_pipe (pipeReadTurn_count hread)
  · cases h
    exact .refl k

theorem Kernel.keepsEnds_pipeWriteOn (h : k.pipeWriteOn pi buf len n = some r) :
    k.KeepsEnds r.2 := by
  unfold Kernel.pipeWriteOn at h
  split at h
  · obtain ⟨x, hwrite, rfl⟩ := map_eq_some_iff.mp h
    exact Kernel.keepsEnds_pipe (pipeWriteTurn_count hwrite)
  · cases h
    exact .refl k

/-- An open file is no open end. -/
theorem TaskFd.isPipe_of_file {f : TaskFd} (h : (f.used && f.type == .file)) :
    f.isPipe = false := by
  simp only [Bool.and_eq_true, beq_iff_eq] at h
  simp [TaskFd.isPipe, h.2]

theorem keepsEnds_sysRead {fd : Int} (h : sysRead k fd buf len = some r) : k.KeepsEnds r.2 := by
  unfold sysRead at h
  split at h
  · cases h
    exact .refl k
  · dsimp only at h
    split at h
    · obtain ⟨x, hread, rfl⟩ := map_eq_some_iff.mp h
      exact Kernel.keepsEnds_pipe (pipeRead_count hread)
    · split at h
      · rename_i hfd _ hfile
        obtain ⟨m, -, rfl⟩ := map_eq_some_iff.mp h
        have hold := TaskFd.isPipe_of_file hfile
        split
        · exact fun rest hc => hc.setOther (by omega) hold hold
        · exact fun _ hc => hc
      · cases h
        exact .refl k

theorem Kernel.Staged.keepsEnds (h : k.Staged k') : k.KeepsEnds k' := fun rest hc => by
  rw [h.current, h.pipes]
  exact hc

theorem Kernel.keepsEnds_fileWrite {writeBuf : Bytes} {r : Int × Bytes × Kernel}
    (hfd : fd < taskFdMax)
    (hfile : (k.current.fdTable fd).isPipe = false) (h : k.fileWrite writeBuf fd buf len = some r) :
    k.KeepsEnds r.2.2 := by
  obtain ⟨-, hstaged⟩ | ⟨k₁, wb, total, hstaged, -, rfl⟩ := Kernel.fileWrite_cases h
  · exact hstaged.keepsEnds
  · rw [← hstaged.current] at hfile
    refine hstaged.keepsEnds.trans ?_
    unfold Kernel.storeFile
    dsimp only
    split
    · exact .refl k₁
    · split
      · exact fun _ h => h
      · exact fun rest h => h.setOther hfd hfile hfile

theorem keepsEnds_sysWrite {writeBuf : Bytes} {r : SysResult × Bytes × Kernel}
    (h : sysWrite k writeBuf fd buf len = some r) : k.KeepsEnds r.2.2 := by
  obtain heq | ⟨x, hwrite, heq⟩ | ⟨hfd, hfile, x, hwrite, heq⟩ := sysWrite_cases h <;> rw [heq]
  · exact .refl k
  · exact Kernel.keepsEnds_pipeWriteOn hwrite
  · exact Kernel.keepsEnds_fileWrite hfd (TaskFd.isPipe_of_file hfile) hwrite

/-- What the loop of `sys_pipe` has found below `n`. -/
def FoundFds (fdTable : Nat → TaskFd) (n : Nat) (fds : Option Nat × Option Nat) : Prop :=
  (∀ r, fds.1 = some r → r < n ∧ (fdTable r).used = false) ∧
    ∀ w, fds.2 = some w → w < n ∧ (fdTable w).used = false ∧ ∃ r, fds.1 = some r ∧ r < w

theorem foundFds_freeFds (fdTable : Nat → TaskFd) :
    FoundFds fdTable taskFdMax (freeFds fdTable) := by
  refine forRange_induct (FoundFds fdTable) (a := 3) (n := taskFdMax - 3) (by simp [FoundFds]) ?_
  intro n fds _ _ hfds
  split
  · exact ⟨fun r hr => ⟨Nat.lt_succ_of_lt (hfds.1 r hr).1, (hfds.1 r hr).2⟩,
      fun w hw => ⟨Nat.lt_succ_of_lt (hfds.2 w hw).1, (hfds.2 w hw).2⟩⟩
  · rename_i hused
    have hn : (fdTable n).used = false := by simpa using hused
    obtain ⟨_ | r, _ | w⟩ := fds
    · simp [FoundFds, hn]
    · obtain ⟨-, -, r, hr, -⟩ := hfds.2 w rfl
      simp at hr
    · obtain ⟨hr, hru⟩ := hfds.1 r rfl
      refine ⟨fun r' hr' => ?_, fun w hw => ?_⟩
      · cases hr'
        exact ⟨Nat.lt_succ_of_lt hr, hru⟩
      · cases hw
        exact ⟨Nat.lt_succ_self _, hn, r, rfl, hr⟩
    · exact ⟨fun r hr => ⟨Nat.lt_succ_of_lt (hfds.1 r hr).1, (hfds.1 r hr).2⟩,
        fun w hw => ⟨Nat.lt_succ_of_lt (hfds.2 w hw).1, (hfds.2 w hw).2⟩⟩

/-- A new end of the pipe `pi` in place of an unused descriptor. -/
theorem TaskFd.isEnd_new {f : TaskFd} {q : Nat} {v w : Bool} :
    ({ f with used := true, type := .pipe, pipeIdx := pi, pipeWrite := v } : TaskFd).isEnd q w =
      (pi == q && v == w) := rfl

/-- A pipe that was not in use gets one descriptor for each end. -/
theorem Covers.openPipe {fds : Nat → TaskFd} {ps : Pipes} {rest : Nat → Bool → Nat}
    (h : Covers fds ps rest)
    (hpi : pi < pipeMax) (hnr : (ps pi).nreaders = 0) (hnw : (ps pi).nwriters = 0) (hlt : rfd < wfd)
    (hw : wfd < taskFdMax) (hr0 : (fds rfd).used = false) (hw0 : (fds wfd).used = false)
    {r w : TaskFd}
    (hr : r = { fds rfd with used := true, type := .pipe, pipeIdx := pi, pipeWrite := false })
    (hwr : w = { fds wfd with used := true, type := .pipe, pipeIdx := pi, pipeWrite := true }) :
    Covers (update (update fds rfd r) wfd w)
      (update ps pi { ps pi with head := 0, tail := 0, nreaders := 1, nwriters := 1 }) rest := by
  have hunused : ∀ {f : TaskFd}, f.used = false → ∀ q v, f.isEnd q v = false := fun hf =>
    TaskFd.isEnd_of_not_isPipe (by simp [TaskFd.isPipe, hf])
  -- the read end first, then the write end
  have hread : Covers (update fds rfd r)
      (update ps pi { ps pi with head := 0, tail := 0, nreaders := 1 }) rest := by
    refine h.set (by omega) (fun q _ v => ?_) fun _ => by rw [hr]; exact hpi
    rw [hunused hr0, hr, TaskFd.isEnd_new]
    by_cases hq : q = pi
    · subst hq
      cases v <;> simp [Pipe.count, hnr]
    · simp [hq, Ne.symm hq]
  refine hread.set hw (fun q _ v => ?_) fun _ => by rw [hwr]; exact hpi
  rw [update_of_ne (show wfd ≠ rfd by omega), hunused hw0, hwr, TaskFd.isEnd_new]
  by_cases hq : q = pi
  · subst hq
    cases v <;> simp [Pipe.count, hnw]
  · simp [hq, Ne.symm hq]

theorem Pipes.store_user {base v : Nat} {ps : Pipes} {bs : List UInt8}
    (h : ∀ i < bs.length, UserAddr ((v + i) % 2 ^ 32)) : ps.store base v bs = ps := by
  induction bs generalizing v with
  | nil => rfl
  | cons b bs ih =>
    rw [Pipes.store, Pipes.poke, if_pos (.inl (h 0 (Nat.succ_pos _)))]
    refine ih fun i hi => ?_
    rw [Nat.add_assoc, Nat.add_comm 1]
    exact h (i + 1) (Nat.succ_lt_succ hi)

/-- A pipe that is given back at once. -/
theorem count_pipeAlloc_close {ps ps' : Pipes} (halloc : pipeAlloc ps = (some pi, ps'))
    (q : Nat) (w : Bool) :
    (pipeCloseWrite (pipeCloseRead ps' pi) pi q).count w = (ps q).count w := by
  obtain ⟨hpi, hnr, hnw, rfl⟩ := pipeAlloc_some halloc
  by_cases hq : q = pi
  · subst hq
    cases w <;> simp [pipeCloseWrite, pipeCloseRead, Pipe.count, hpi, hnr, hnw]
  · simp [pipeCloseWrite, pipeCloseRead, hpi, hq]

theorem keepsEnds_sysPipe {userFds : Nat} (huser : ∀ i < 8, UserAddr ((userFds + i) % 2 ^ 32))
    (h : sysPipe k userFds = some r) : k.KeepsEnds r.2 := by
  unfold sysPipe at h
  split at h
  · cases h
    exact .refl k
  · rename_i pi ps halloc
    split at h
    · rename_i rfd wfd hfds
      have hfound := foundFds_freeFds k.current.fdTable
      rw [hfds] at hfound
      obtain ⟨hw, hw0, r, hr, hlt⟩ := hfound.2 wfd rfl
      cases hr
      obtain ⟨m, -, hm⟩ := bind_eq_some_iff.mp h
      obtain ⟨m', -, rfl⟩ := map_eq_some_iff.mp hm
      obtain ⟨hpi, hnr, hnw, rfl⟩ := pipeAlloc_some halloc
      rw [@Pipes.store_user _ _ _ (intBytes rfd ++ intBytes wfd) huser]
      refine fun rest h => h.openPipe hpi hnr hnw hlt hw (hfound.1 rfd rfl).2 hw0 rfl ?_
      simp [Kernel.setFd, update_of_ne (show wfd ≠ rfd by omega)]
    · cases h
      exact fun rest hc => hc.congr fun q _ w => count_pipeAlloc_close halloc q w

/-- The bytes that a call stores for its caller go to user space. -/
def FdCall.StoresUser : FdCall → Prop
  | .read _ buf len | .readOn _ buf len _ => ∀ i < len, UserAddr ((buf + i) % 2 ^ 32)
  | .pipe userFds => ∀ i < 8, UserAddr ((userFds + i) % 2 ^ 32)
  | _ => True

/-- **A call** keeps the count of pipe ends. -/
theorem FdCall.keepsEnds {c : FdCall} {cwd : CStr} {writeBuf : Bytes} {r : Bytes × Kernel}
    (huser : c.StoresUser) (h : c.run k cwd writeBuf = some r) : k.KeepsEnds r.2 := by
  cases c with
  | «open» name =>
    cases h
    exact keepsEnds_sysOpen k cwd name
  | openW uname append =>
    cases h
    exact keepsEnds_sysOpenW k cwd uname append
  | read fd buf len =>
    obtain ⟨x, hx, rfl⟩ := map_eq_some_iff.mp h
    exact keepsEnds_sysRead hx
  | readOn pi buf len n =>
    obtain ⟨x, hx, rfl⟩ := map_eq_some_iff.mp h
    exact Kernel.keepsEnds_pipeReadOn hx
  | write fd buf len =>
    obtain ⟨x, hx, rfl⟩ := map_eq_some_iff.mp h
    exact keepsEnds_sysWrite hx
  | writeOn pi buf len n =>
    obtain ⟨x, hx, rfl⟩ := map_eq_some_iff.mp h
    exact Kernel.keepsEnds_pipeWriteOn hx
  | close fd =>
    cases h
    exact keepsEnds_sysClose k fd
  | pipe userFds =>
    obtain ⟨x, hx, rfl⟩ := map_eq_some_iff.mp h
    exact keepsEnds_sysPipe huser hx
  | exec =>
    cases h
    exact k.keepsEnds_execClose

end

/-! ## runs -/

/-- `sched_wait` does not reap a task that holds an open end. -/
def ReapsClosed (s : System) (op : SysOp) : Prop :=
  op = .sched .wait → ∀ t, s.block t = .queued → s.cur.zombieOf (s.tasks t).toTask = true →
    ∀ i < taskFdMax, ((s.tasks t).fdTable i).isPipe = false

/-- A step that keeps the count: nothing is stored through a pointer out of user space, and no
open end is reaped. -/
def CountsEnds (s : System) (op : SysOp) : Prop :=
  ReapsClosed s op ∧ ∀ c, op = .call c → c.StoresUser

/-- **One step** keeps the count of pipe ends. -/
theorem System.step_ends {s s' : System} {l : List Nat} {queue : Finset Nat} {e : Surroundings}
    {op : SysOp} (hl : Linked s.toSched l) (h : Ends s.toSched queue) (hop : op.allowed s)
    (hok : CountsEnds s op) (hstep : s.step e op = some s') : ∃ queue', Ends s'.toSched queue' := by
  cases op with
  | sched o =>
    obtain ⟨t, ht, rfl⟩ := map_eq_some_iff.mp hstep
    have hto := hl.step_some hop ht
    exact hto.ends hl h fun heq t ht => hok.1 (by rw [heq]) t ((h.mem t).mp ht)
  | call c =>
    obtain ⟨r, hr, rfl⟩ := map_eq_some_iff.mp hstep
    refine ⟨queue, h.store ((h.mem _).mpr hl.cur_queued) rfl (fun b hb => by rw [s.put_other _ hb])
      fun rest hc => ?_⟩
    rw [s.put_self _]
    exact FdCall.keepsEnds (hok.2 c rfl) hr rest hc
  | alfs c =>
    cases hstep
    exact ⟨queue, h⟩

theorem Booted.ends {s : Sched} (h : Booted s) : Ends s {bootTask} := by
  have hunused : ∀ i, ((s.tasks bootTask).fdTable i).used = false := fun i => by rw [h.boot]; rfl
  have hno : ∀ i, ((s.tasks bootTask).fdTable i).isPipe = false := fun i => by
    simp [TaskFd.isPipe, hunused i]
  refine ⟨fun a => ?_, fun pi _ w => ?_, fun a ha i _ hp => ?_, fun a ha => ?_⟩
  · rw [h.block]
    simp
  · rw [Finset.sum_singleton, endsIn_eq_zero.mpr fun i _ => TaskFd.isEnd_of_not_isPipe (hno i) pi w]
    cases w <;> simp [Pipe.count, h.pipes pi]
  · obtain rfl := Finset.mem_singleton.mp ha
    simp [hno i] at hp
  · rw [h.block] at ha
    split at ha <;> simp at ha

/-- **Every run** keeps the count of pipe ends. -/
theorem SysRun.ends {s₀ s : System} (hboot : Booted s₀.toSched) (hrun : SysRun CountsEnds s₀ s) :
    ∃ queue, Ends s.toSched queue := by
  induction hrun with
  | nil => exact ⟨_, hboot.ends⟩
  | step e op hrun hop hok hstep ih =>
    obtain ⟨l, hl⟩ := hrun.linked hboot
    obtain ⟨queue, h⟩ := ih
    exact System.step_ends hl h hop hok hstep

/-- A counter that is 0 leaves no end in the queue. -/
theorem Ends.no_end {s : Sched} {queue : Finset Nat} (h : Ends s queue) (hpi : pi < pipeMax)
    {w : Bool}
    (h0 : (s.pipes pi).count w = 0) {a : Nat} (ha : a ∈ queue) {i : Nat} (hi : i < taskFdMax) :
    ((s.tasks a).fdTable i).isEnd pi w = false := by
  rw [h.count pi hpi w] at h0
  exact endsIn_eq_zero.mp (Finset.sum_eq_zero_iff.mp h0 a ha) i hi

/-- **Pipe end counting.**  In every run that stores through pointers into user space only and
reaps no task with an open end, `nwriters` and `nreaders` of every pipe are the numbers of its
write and read ends in the run queue.
So `pipe_alloc` takes no pipe a descriptor refers to, and the ends of data and of pipes
are reported only when the other ends are closed. -/
theorem pipe_ends_counted {s₀ s : System} (hboot : Booted s₀.toSched)
    (hrun : SysRun CountsEnds s₀ s) : ∃ l, Linked s.toSched l ∧
      (∀ pi < pipeMax,
        (s.pipes pi).nwriters = ∑ a ∈ (s.current :: l).toFinset,
        endsIn (s.tasks a).fdTable pi true ∧
        (s.pipes pi).nreaders = ∑ a ∈ (s.current :: l).toFinset,
        endsIn (s.tasks a).fdTable pi false) ∧
      (∀ pi ps, pipeAlloc s.pipes = (some pi, ps) → ∀ a ∈ s.current :: l, ∀ i < taskFdMax,
        ((s.tasks a).fdTable i).isPipe = true → ((s.tasks a).fdTable i).pipeIdx ≠ pi) ∧
      ∀ pi < pipeMax, ∀ (buf len n : Nat) (m : Machine),
        (∀ r, pipeReadTurn buf len n (s.pipes pi) m = some (.stopped, r) →
          ∀ a ∈ s.current :: l, ∀ i < taskFdMax, ((s.tasks a).fdTable i).isEnd pi true = false) ∧
        ∀ r, pipeWriteTurn buf len n (s.pipes pi) m = some (.stopped, r) →
          ∀ a ∈ s.current :: l, ∀ i < taskFdMax, ((s.tasks a).fdTable i).isEnd pi false =
            false := by
  obtain ⟨l, hl⟩ := hrun.linked hboot
  obtain ⟨queue, h⟩ := hrun.ends hboot
  have hqueue : (s.current :: l).toFinset = queue := by
    ext a
    rw [List.mem_toFinset, hl.queued, h.mem]
  have hmem : ∀ a ∈ s.current :: l, a ∈ queue := fun a ha => (h.mem a).mpr ((hl.queued a).mp ha)
  refine ⟨l, hl, fun pi hpi => ?_, fun pi ps halloc a ha i hi hp heq => ?_,
    fun pi hpi buf len n m => ⟨?_, ?_⟩⟩
  · rw [hqueue]
    exact ⟨h.count pi hpi true, h.count pi hpi false⟩
  · obtain ⟨hpi, hnr, hnw, -⟩ := pipeAlloc_some halloc
    have hcount : (s.pipes pi).count ((s.tasks a).fdTable i).pipeWrite = 0 := by
      cases ((s.tasks a).fdTable i).pipeWrite <;> simp [Pipe.count, hnr, hnw]
    have hend := h.no_end hpi hcount (hmem a ha) hi
    simp [TaskFd.isEnd, hp, heq] at hend
  · intro r hstop a ha i hi
    exact h.no_end hpi (pipeReadTurn_stopped hstop) (hmem a ha) hi
  · intro r hstop a ha i hi
    exact h.no_end hpi (pipeWriteTurn_stopped hstop) (hmem a ha) hi

/-- A user task is started and calls `sys_pipe`. -/
def pipeOps (userFds : Nat) : List SysOp :=
  [.sched (.create 2), .sched (.add 2), .sched .yield, .call (.pipe userFds)]

/-- A pipe between a task, which has closed its write end, and its child. -/
theorem pipe_ends_counted_fork : ∃ s, (bootSystem fun _ => 0).exec ⟨2, pairMachine 402, []⟩
      (pipeOps 0x08000000 ++ [.sched (.fork (some 3)), .call (.close 4)]) = some s ∧
    (s.pipes 0).nwriters = 1 ∧ (s.pipes 0).nreaders = 2 ∧ ∃ l, Linked s.toSched l ∧
      (s.pipes 0).nwriters = ∑ a ∈ (s.current :: l).toFinset,
      endsIn (s.tasks a).fdTable 0 true := by
  have hany : ((bootSystem fun _ => 0).exec ⟨2, pairMachine 402, []⟩
      (pipeOps 0x08000000 ++ [.sched (.fork (some 3)), .call (.close 4)])).any
      (fun s => (s.pipes 0).nwriters == 1 && (s.pipes 0).nreaders == 2) = true := by decide +kernel
  obtain ⟨s, hexec, hcount⟩ := (Option.any_eq_true _ _).mp hany
  simp only [Bool.and_eq_true, beq_iff_eq] at hcount
  have hrun : SysRun CountsEnds (bootSystem fun _ => 0) s := by
    refine SysRun.nil.exec (fun op hop s => ⟨fun hwait => ?_, fun c hc => ?_⟩) hexec
    · simp [hwait, pipeOps] at hop
    · rw [hc] at hop
      obtain rfl | rfl : c = .pipe 0x08000000 ∨ c = .close 4 := by simpa [pipeOps] using hop
      · show ∀ i < 8, UserAddr ((0x08000000 + i) % 2 ^ 32)
        decide
      · trivial
  obtain ⟨l, hl, hpipes, -⟩ := pipe_ends_counted booted_bootSched hrun
  exact ⟨s, hexec, hcount.1, hcount.2, l, hl, (hpipes 0 (by decide)).1⟩

/-- `sys_pipe` with the address five bytes before `pipes[0].nreaders`: the zero bytes of the
second number clear the counter.  The task closes the write end, and its read end refers to a
pipe that `pipe_alloc` gives out again. -/
theorem sysPipe_uncounts : ∃ s, SysRun ReapsClosed (bootSystem fun _ => 0) s ∧
    s.block 2 = .queued ∧ ((s.tasks 2).fdTable 3).isEnd 0 false = true ∧
    (s.pipes 0).nreaders = 0 ∧ (pipeAlloc s.pipes).1 = some 0 := by
  have hany : ((bootSystem fun _ => 0).exec ⟨2, pairMachine 402, []⟩
      (pipeOps (0x20000 + pipeBuf + 3) ++ [.call (.close 4)])).any (fun s => s.block 2 == .queued &&
        ((s.tasks 2).fdTable 3).isEnd 0 false && (s.pipes 0).nreaders == 0 &&
        (pipeAlloc s.pipes).1 == some 0) = true := by decide +kernel
  obtain ⟨s, hexec, hs⟩ := (Option.any_eq_true _ _).mp hany
  simp only [Bool.and_eq_true, beq_iff_eq] at hs
  obtain ⟨⟨⟨hblock, hend⟩, hcount⟩, halloc⟩ := hs
  refine ⟨s, SysRun.nil.exec (fun op hop s hwait => ?_) hexec, hblock, hend, hcount, halloc⟩
  simp [hwait, pipeOps] at hop

end AliOS
