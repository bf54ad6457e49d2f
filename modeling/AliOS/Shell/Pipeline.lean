import AliOS.Shell.Words
import AliOS.System.Ends

/-!
# AliOS.Shell.Pipeline

`cmd_pipe` (`kernel/shell.c`) up to the point where the two tasks are added to the run
queue.  The pipe ends are put into the tables of the new tasks first, and redirections then
replace descriptors without closing them: the counters of the pipe are right unless the
output of the left command or the input of the right one is redirected to a file that can
be opened.

Both commands go through `strip_redirects` before any file is opened.  The second call
overwrites the buffers that the pointers of the first one refer to, so the left command gets
the files of the right one: `pipeFiles_iff`.
-/

namespace AliOS

open Lib Function

variable {a lt rt pi : Nat} {f : TaskFd}

/-! ## cmd_pipe -/

/-- `pipe_close_read(pi); pipe_close_write(pi)`. -/
def System.closePipe (s : System) (pi : Nat) : System :=
  { s with toSched := { s.toSched with pipes := pipeCloseWrite (pipeCloseRead s.pipes pi) pi } }

/-- `task_create_user`, when `kmalloc` returns the address `a`. -/
def System.create (s : System) (a : Nat) : System := { s with toSched := s.taskCreateUser a }

/-- `kfree` of a task that has not been scheduled. -/
def System.discard (s : System) (a : Nat) : System :=
  { s with toSched := { s.toSched with block := update s.block a .free } }

/-- The descriptor `fd` of the task at `a` becomes an end of the pipe `pi`. -/
def System.pipeEnd (s : System) (a fd pi : Nat) (w : Bool) : System :=
  s.setFd a fd
    { (s.tasks a).fdTable fd with used := true, type := .pipe, pipeIdx := pi, pipeWrite := w }

/-- The file redirections of `cmd_pipe`, `l` of the left and `r` of the right command.  The
names come from the buffers, as the second call of `strip_redirects` has left them. -/
def System.applyRedirects (s : System) (cwd : CStr) (lt rt : Nat) (l r : Redirects) : System :=
  let s := if l.inFile then (redirSetupRead s cwd lt 0 r.inBuf).2 else s
  let s := if l.outFile then (redirSetupWrite s cwd lt 1 r.outBuf l.outAppend).2 else s
  let s := if r.inFile then (redirSetupRead s cwd rt 0 r.inBuf).2 else s
  if r.outFile then (redirSetupWrite s cwd rt 1 r.outBuf r.outAppend).2 else s

/-- How `cmd_pipe` goes on: it has given up, or the tasks `lt` and `rt` with the pipe `pi`
are about to be added. -/
inductive Launch where
  | gaveUp (s : System)
  | launch (pi lt rt : Nat) (s : System)

/-- The string "/bin". -/
def binPath : CStr := ⟨[slash, 98, 105, 110], by simp [slash]⟩

/-- The program a command names; `/bin` is tried if there is no such file. -/
def resolveProgram (fs : Fs) (cwd arg : CStr) : CStr :=
  let res := pathResolve cwd arg
  let t := pathResolve binPath arg
  if alfsFind fs (some res) < 0 then if 0 ≤ alfsFind fs (some t) then t else res else res

/-- `cmd_pipe` up to `sched_add`.  `loadLeft` and `loadRight` make the tasks: they return
the address of the new task, or `none` when the program cannot be loaded or memory is
short. -/
def cmdPipe (s : System) (cwd left right : CStr) (loadLeft loadRight : CStr → Option Nat) :
    Launch :=
  let l := stripRedirects left.chars
  let r := stripRedirects right.chars
  match tokenise 16 l.1, tokenise 16 r.1 with
  | [], _ => .gaveUp s
  | _, [] => .gaveUp s
  | larg :: _, rarg :: _ =>
    let lres := resolveProgram s.fs cwd (CStr.ofBytes larg)
    let rres := resolveProgram s.fs cwd (CStr.ofBytes rarg)
    match pipeAlloc s.pipes with
    | (none, _) => .gaveUp s
    | (some pi, ps) =>
      let s := { s with toSched := { s.toSched with pipes := ps } }
      match loadLeft lres with
      | none => .gaveUp (s.closePipe pi)
      | some lt =>
        let s := (s.create lt).pipeEnd lt 1 pi true
        match loadRight rres with
        | none => .gaveUp ((s.discard lt).closePipe pi)
        | some rt =>
          let s := (s.create rt).pipeEnd rt 0 pi false
          .launch pi lt rt (s.applyRedirects cwd lt rt l.2 r.2)

/-! ## one redirection -/

/-- A file that `sys_open_w` or a redirection of the output opens. -/
def OutputOpens (fs : Fs) (path : CStr) (append : Bool) : Prop :=
  (prepareWrite fs path append).1 ≠ none ∧ 0 ≤ alfsFind (prepareWrite fs path append).2 (some path)

/-- A file that `sys_open` or a redirection of the input opens: it exists and is no
directory. -/
def InputOpens (fs : Fs) (path : CStr) : Prop :=
  0 ≤ alfsFind fs (some path) ∧ alfsIsDir fs (alfsFind fs (some path)) = false

/-- `s'` is `s` after a redirection of the descriptor `fd` of the task at `a`, with success
`ok`. -/
structure Redirected (s s' : System) (a fd : Nat) (ok : Prop) : Prop where
  pipes : s'.pipes = s.pipes
  other : ∀ b, b ≠ a → s'.tasks b = s.tasks b
  opened : ok → ∃ f : TaskFd, f.isPipe = false ∧
    (s'.tasks a).fdTable = update (s.tasks a).fdTable fd f
  failed : ¬ok → (s'.tasks a).fdTable = (s.tasks a).fdTable

section

variable {s s' : System} {a b fd : Nat} {ok : Prop}

theorem System.setFd_self (s : System) (a fd : Nat) (f : TaskFd) :
    ((s.setFd a fd f).tasks a).fdTable = update (s.tasks a).fdTable fd f := by
  simp [System.setFd, Sched.modify]

theorem System.setFd_other (s : System) {b : Nat} (hb : b ≠ a) (fd : Nat) (f : TaskFd) :
    (s.setFd a fd f).tasks b = s.tasks b := update_of_ne hb _ _

/-- Only the file system has changed. -/
theorem Redirected.refl (s : System) (fs : Fs) (a fd : Nat) (hok : ¬ok) :
    Redirected s { s with fs := fs } a fd ok :=
  ⟨rfl, fun _ _ => rfl, fun h => absurd h hok, fun _ => rfl⟩

theorem redirected_redirect (s : System) (fs : Fs) (a fd : Nat) (idx : Int)
    (offset : Nat) (hok : ok) :
    Redirected s ({ s with fs := fs }.redirect a fd idx offset) a fd ok :=
  ⟨rfl, fun _ hb => System.setFd_other _ hb _ _, fun _ => ⟨_, rfl, System.setFd_self _ _ _ _⟩,
    fun h => absurd hok h⟩

theorem redirected_setupWrite (s : System) (cwd : CStr) (a fd : Nat) (path : CStr) (append : Bool) :
    Redirected s (redirSetupWrite s cwd a fd path append).2 a fd
      (OutputOpens s.fs (pathResolve cwd path) append) := by
  unfold redirSetupWrite OutputOpens
  dsimp only
  split
  · rename_i hnone
    exact .refl s _ a fd (by simp [hnone])
  · rename_i off hsome
    split
    · exact .refl s _ a fd fun h => absurd h.2 (by omega)
    · exact redirected_redirect s _ a fd _ _ ⟨by simp [hsome], by omega⟩

theorem redirected_setupRead (s : System) (cwd : CStr) (a fd : Nat) (path : CStr) :
    Redirected s (redirSetupRead s cwd a fd path).2 a fd
      (InputOpens s.fs (pathResolve cwd path)) := by
  unfold redirSetupRead InputOpens
  dsimp only
  split
  · rename_i hno
    refine .refl s s.fs a fd fun h => ?_
    rcases hno with hno | hno
    · omega
    · simp [h.2] at hno
  · rename_i hyes
    exact redirected_redirect s s.fs a fd _ _ ⟨by omega, by simpa using fun h => hyes (.inr h)⟩

/-- A redirection that is there or not. -/
theorem Redirected.ite {c : Bool} (h : Redirected s s' a fd ok) :
    Redirected s (if c then s' else s) a fd (c ∧ ok) := by
  cases c with
  | true => simpa using h
  | false => exact ⟨rfl, fun _ _ => rfl, fun h => by simp at h, fun _ => rfl⟩

/-! ## the tables of the two tasks -/

/-- The descriptor `fd` of the task at `a` is `f`, and no other one is an open end. -/
def System.OnlyEnd (s : System) (a fd : Nat) (f : TaskFd) : Prop :=
  (s.tasks a).fdTable fd = f ∧ ∀ i < taskFdMax, i ≠ fd → ((s.tasks a).fdTable i).isPipe = false

theorem System.OnlyEnd.count (h : s.OnlyEnd a fd f) (hfd : fd < taskFdMax) (pi : Nat) (w : Bool) :
    endsIn (s.tasks a).fdTable pi w = (f.isEnd pi w).toNat := by
  have hset := endsIn_update hfd (s.tasks a).fdTable { f with used := false } pi w
  have hnone : endsIn (update (s.tasks a).fdTable fd { f with used := false }) pi w = 0 := by
    refine endsIn_eq_zero.mpr fun i hi => TaskFd.isEnd_of_not_isPipe ?_ pi w
    by_cases heq : i = fd
    · subst heq
      rw [update_self]
      rfl
    · rw [update_of_ne heq]
      exact h.2 i hi heq
  have hclosed : ({ f with used := false } : TaskFd).isEnd pi w = false :=
    TaskFd.isEnd_of_not_isPipe rfl pi w
  rw [hnone, hclosed, h.1] at hset
  simpa using hset.symm

/-- A redirection of another task. -/
theorem Redirected.onlyEnd_other {fd' : Nat} (h : Redirected s s' b fd' ok) (hb : a ≠ b)
    (he : s.OnlyEnd a fd f) : s'.OnlyEnd a fd f := by
  unfold System.OnlyEnd
  rw [h.other a hb]
  exact he

/-- A redirection of another descriptor. -/
theorem Redirected.onlyEnd_same {fd' : Nat} (h : Redirected s s' a fd' ok) (hfd : fd ≠ fd')
    (he : s.OnlyEnd a fd f) : s'.OnlyEnd a fd f := by
  unfold System.OnlyEnd
  by_cases hok : ok
  · obtain ⟨g, hg, htable⟩ := h.opened hok
    rw [htable, update_of_ne hfd]
    refine ⟨he.1, fun i hi hne => ?_⟩
    by_cases heq : i = fd'
    · rw [heq, update_self]
      exact hg
    · rw [update_of_ne heq]
      exact he.2 i hi hne
  · rw [h.failed hok]
    exact he

/-- A redirection of the descriptor itself: the end is gone, if the file was opened. -/
theorem Redirected.onlyEnd_self (h : Redirected s s' a fd ok) (he : s.OnlyEnd a fd f) :
    ∃ g, s'.OnlyEnd a fd g ∧ (ok → g.isPipe = false) ∧ (¬ok → g = f) := by
  by_cases hok : ok
  · obtain ⟨g, hg, htable⟩ := h.opened hok
    refine ⟨g, ⟨by rw [htable, update_self], fun i hi hne => ?_⟩, fun _ => hg,
      fun h => absurd hok h⟩
    rw [htable, update_of_ne hne]
    exact he.2 i hi hne
  · refine ⟨f, ?_, fun h => absurd h hok, fun _ => rfl⟩
    unfold System.OnlyEnd
    rw [h.failed hok]
    exact he

/-- A new task with one pipe end. -/
theorem System.onlyEnd_create (s : System) (a fd pi : Nat) (w : Bool) : ∃ f : TaskFd,
    (∀ q v, f.isEnd q v = (pi == q && w == v)) ∧
      ((s.create a).pipeEnd a fd pi w).OnlyEnd a fd f := by
  refine ⟨_, fun _ _ => rfl, congrFun (System.setFd_self _ _ _ _) fd |>.trans (update_self _ _ _),
    fun i _ hne => ?_⟩
  unfold System.pipeEnd
  rw [System.setFd_self, update_of_ne hne]
  show (((s.taskCreateUser a).tasks a).fdTable i).isPipe = false
  rw [s.taskCreateUser_self]
  rfl

/-- It leaves the other tasks alone. -/
theorem System.create_pipeEnd_other (s : System) {b : Nat} (hb : b ≠ a) (fd pi : Nat) (w : Bool) :
    ((s.create a).pipeEnd a fd pi w).tasks b = s.tasks b :=
  (System.setFd_other _ hb _ _).trans (s.taskCreateUser_other hb)

end

/-! ## the counters of the pipe -/

/-- The file system when the input of the right command is redirected: the output of the
left one has been. -/
def fsAfterLeft (fs : Fs) (cwd : CStr) (l r : Redirects) : Fs :=
  if l.outFile then (prepareWrite fs (pathResolve cwd r.outBuf) l.outAppend).2 else fs

/-- A reader of the pipe sees the end of the data. -/
def Pipe.Ended (p : Pipe) : Prop := ∀ buf len m, pipeRead buf len 0 p m = some ((0, true), p, m)

theorem Pipe.ended_of_empty {p : Pipe} (hempty : p.avail = 0) (hw : p.nwriters = 0) : p.Ended := by
  intro buf len m
  unfold pipeRead
  by_cases hlen : 0 < len
  · rw [dif_pos hlen, dif_pos hempty, hw]
    rfl
  · rw [dif_neg hlen]

/-- A redirection replaces a pipe end: the output of the left command is redirected to a
file that can be opened, or the input of the right one to a file that exists. -/
def ReplacesEnd (fs : Fs) (cwd : CStr) (l r : Redirects) : Prop :=
  l.outFile = true ∧ OutputOpens fs (pathResolve cwd r.outBuf) l.outAppend ∨
    r.inFile = true ∧ InputOpens (fsAfterLeft fs cwd l r) (pathResolve cwd r.inBuf)

theorem redirSetupRead_fs (s : System) (cwd : CStr) (a fd : Nat) (path : CStr) :
    (redirSetupRead s cwd a fd path).2.fs = s.fs := by
  unfold redirSetupRead
  dsimp only
  split <;> rfl

theorem redirSetupWrite_fs (s : System) (cwd : CStr) (a fd : Nat) (path : CStr) (append : Bool) :
    (redirSetupWrite s cwd a fd path append).2.fs =
      (prepareWrite s.fs (pathResolve cwd path) append).2 := by
  unfold redirSetupWrite
  dsimp only
  split
  · rfl
  · split <;> rfl

/-- **The redirections**: what they leave of the two pipe ends. -/
theorem System.applyRedirects_spec {s : System} (cwd : CStr) (hne : lt ≠ rt) (l r : Redirects)
    {g : TaskFd} (hl : s.OnlyEnd lt 1 f) (hr : s.OnlyEnd rt 0 g) :
    (s.applyRedirects cwd lt rt l r).pipes = s.pipes ∧
    (∃ f', (s.applyRedirects cwd lt rt l r).OnlyEnd lt 1 f' ∧
      (l.outFile ∧ OutputOpens s.fs (pathResolve cwd r.outBuf) l.outAppend → f'.isPipe = false) ∧
      (¬(l.outFile ∧ OutputOpens s.fs (pathResolve cwd r.outBuf) l.outAppend) → f' = f)) ∧
    ∃ g', (s.applyRedirects cwd lt rt l r).OnlyEnd rt 0 g' ∧
      (r.inFile ∧ InputOpens (fsAfterLeft s.fs cwd l r) (pathResolve cwd r.inBuf) →
        g'.isPipe = false) ∧
      (¬(r.inFile ∧ InputOpens (fsAfterLeft s.fs cwd l r) (pathResolve cwd r.inBuf)) → g' = g) := by
  unfold System.applyRedirects
  dsimp only
  -- the four redirections, one after the other
  have h1 := (redirected_setupRead s cwd lt 0 r.inBuf).ite (c := l.inFile)
  have hfs1 : (if l.inFile then (redirSetupRead s cwd lt 0 r.inBuf).2 else s).fs = s.fs := by
    split
    · exact redirSetupRead_fs _ _ _ _ _
    · rfl
  generalize (if l.inFile then (redirSetupRead s cwd lt 0 r.inBuf).2 else s) = s₁ at h1 hfs1 ⊢
  have h2 := (redirected_setupWrite s₁ cwd lt 1 r.outBuf l.outAppend).ite (c := l.outFile)
  have hfs2 : (if l.outFile then (redirSetupWrite s₁ cwd lt 1 r.outBuf l.outAppend).2 else s₁).fs =
      fsAfterLeft s.fs cwd l r := by
    unfold fsAfterLeft
    split
    · rw [redirSetupWrite_fs, hfs1]
    · exact hfs1
  generalize (if l.outFile then (redirSetupWrite s₁ cwd lt 1 r.outBuf l.outAppend).2 else s₁) =
    s2 at h2 hfs2 ⊢
  have h3 := (redirected_setupRead s2 cwd rt 0 r.inBuf).ite (c := r.inFile)
  generalize (if r.inFile then (redirSetupRead s2 cwd rt 0 r.inBuf).2 else s2) = s3 at h3 ⊢
  have h4 := (redirected_setupWrite s3 cwd rt 1 r.outBuf r.outAppend).ite (c := r.outFile)
  rw [hfs1] at h2
  rw [hfs2] at h3
  refine ⟨h4.pipes.trans (h3.pipes.trans (h2.pipes.trans h1.pipes)), ?_, ?_⟩
  · obtain ⟨f', hf', hopen, hfail⟩ := h2.onlyEnd_self (h1.onlyEnd_same (by decide) hl)
    exact ⟨f', h4.onlyEnd_other hne (h3.onlyEnd_other hne hf'), hopen, hfail⟩
  · have hr2 := h2.onlyEnd_other (Ne.symm hne) (h1.onlyEnd_other (Ne.symm hne) hr)
    obtain ⟨g', hg', hopen, hfail⟩ := h3.onlyEnd_self hr2
    exact ⟨g', h4.onlyEnd_same (by decide) hg', hopen, hfail⟩

/-- No pipe end is open after `release_pipe_fds`. -/
theorem endsIn_releaseFds (fds : Nat → TaskFd) (ps : Pipes) (pi : Nat) (w : Bool) :
    endsIn (forRange releaseFd 0 taskFdMax (fds, ps)).1 pi w = 0 := by
  refine endsIn_eq_zero.mpr fun i hi => TaskFd.isEnd_of_not_isPipe ?_ pi w
  rw [releaseFds_table, if_pos hi, TaskFd.released]
  split
  · rfl
  · rename_i hp
    exact Bool.not_eq_true _ |>.mp hp

/-- `release_pipe_fds` moves no data. -/
theorem avail_releaseFds (fds : Nat → TaskFd) (ps : Pipes) (pi : Nat) :
    ((forRange releaseFd 0 taskFdMax (fds, ps)).2 pi).avail = (ps pi).avail := by
  refine forRange_induct (fun _ (st : (Nat → TaskFd) × Pipes) => (st.2 pi).avail = (ps pi).avail)
    rfl
    fun i st _ _ ih => ?_
  unfold releaseFd TaskFd.closeEnd pipeCloseWrite pipeCloseRead
  have hset : ∀ q (p : Pipe), p.avail = (st.2 q).avail →
      (update st.2 q p pi).avail = (ps pi).avail := by
    intro q p hp
    by_cases heq : pi = q
    · subst heq
      rw [update_self, hp, ih]
    · rw [update_of_ne heq, ih]
  split
  · split <;> split
    · exact hset _ _ rfl
    · exact ih
    · exact hset _ _ rfl
    · exact ih
  · exact ih

/-- A task exits that holds the only write end of a pipe. -/
theorem System.OnlyEnd.release {s : System} {fd : Nat} (h : s.OnlyEnd a fd f) (hfd : fd < taskFdMax)
    (hpi : pi < pipeMax) (hend : ∀ q v, f.isEnd q v = (pi == q && true == v))
    (hcount : (s.pipes pi).nwriters = 1) (hempty : (s.pipes pi).avail = 0) :
    ((s.releasePipeFds a).pipes pi).Ended := by
  have hcovers : Covers (s.tasks a).fdTable s.pipes
      fun q v => (s.pipes q).count v - endsIn (s.tasks a).fdTable q v := by
    refine ⟨fun q _ v => ?_, fun i hi hp => ?_⟩
    · rw [h.count hfd, hend]
      by_cases hq : pi = q ∧ true = v
      · obtain ⟨rfl, rfl⟩ := hq
        simp [Pipe.count, hcount]
      · have hno : (pi == q && true == v) = false := by
          simpa [Bool.and_eq_false_iff, Classical.not_and_iff_not_or_not] using hq
        rw [hno, Bool.toNat_false, Nat.zero_add, Nat.sub_zero]
    · by_cases heq : i = fd
      · have hself := hend f.pipeIdx f.pipeWrite
        rw [heq, h.1] at hp ⊢
        simp only [TaskFd.isEnd, hp, beq_self_eq_true, Bool.and_self] at hself
        simp only [Bool.true_eq, Bool.and_eq_true, beq_iff_eq] at hself
        rw [← hself.1]
        exact hpi
      · simp [h.2 i hi heq] at hp
  have hafter := hcovers.releaseFds.count pi hpi true
  rw [endsIn_releaseFds, h.count hfd, hend] at hafter
  have hzero : ((forRange releaseFd 0 taskFdMax ((s.tasks a).fdTable, s.pipes)).2 pi).nwriters =
      0 := by
    simpa [Pipe.count, hcount] using hafter
  exact Pipe.ended_of_empty ((avail_releaseFds _ _ pi).trans hempty) hzero

/-- The two tasks of a pipeline, each with its end of the pipe `pi`. -/
theorem System.onlyEnds (s : System) (hne : lt ≠ rt) (pi : Nat) : ∃ f g : TaskFd,
    (∀ q v, f.isEnd q v = (pi == q && true == v)) ∧ (∀ q v, g.isEnd q v = (pi == q && false == v)) ∧
    (((s.create lt).pipeEnd lt 1 pi true).create rt |>.pipeEnd rt 0 pi false).OnlyEnd lt 1 f ∧
    (((s.create lt).pipeEnd lt 1 pi true).create rt |>.pipeEnd rt 0 pi false).OnlyEnd rt 0 g := by
  obtain ⟨f, hf, hlt⟩ := s.onlyEnd_create lt 1 pi true
  obtain ⟨g, hg, hrt⟩ := ((s.create lt).pipeEnd lt 1 pi true).onlyEnd_create rt 0 pi false
  refine ⟨f, g, hf, hg, ?_, hrt⟩
  unfold System.OnlyEnd
  rw [System.create_pipeEnd_other _ hne]
  exact hlt

/-- A pipe with one write end and one read end, before the redirections. -/
theorem System.counted_applyRedirects {s : System} {cwd : CStr} (hpi : pi < pipeMax)
    (hw : (s.pipes pi).nwriters = 1) (hr : (s.pipes pi).nreaders = 1)
    (hempty : (s.pipes pi).avail = 0)
    (hne : lt ≠ rt) (l r : Redirects) {g : TaskFd}
    (hf : ∀ q v, f.isEnd q v = (pi == q && true == v))
    (hg : ∀ q v, g.isEnd q v = (pi == q && false == v)) (hlt : s.OnlyEnd lt 1 f)
    (hrt : s.OnlyEnd rt 0 g) :
    let s' := s.applyRedirects cwd lt rt l r
    ((s'.pipes pi).nwriters =
        endsIn (s'.tasks lt).fdTable pi true + endsIn (s'.tasks rt).fdTable pi true ∧
      (s'.pipes pi).nreaders =
        endsIn (s'.tasks lt).fdTable pi false + endsIn (s'.tasks rt).fdTable pi false ∧
      ((s'.releasePipeFds lt).pipes pi).Ended) ↔ ¬ReplacesEnd s.fs cwd l r := by
  intro s'
  obtain ⟨hpipes, ⟨f', hf', hlopen, hlfail⟩, g', hg', hropen, hrfail⟩ :=
    System.applyRedirects_spec cwd hne l r hlt hrt
  have hw' : (s'.pipes pi).nwriters = 1 :=
    (congrArg (fun ps : Pipes => (ps pi).nwriters) hpipes).trans hw
  have hr' : (s'.pipes pi).nreaders = 1 :=
    (congrArg (fun ps : Pipes => (ps pi).nreaders) hpipes).trans hr
  -- neither end can stand for the other one
  have hgw : g'.isEnd pi true = false := by
    by_cases hopen : r.inFile = true ∧
      InputOpens (fsAfterLeft s.fs cwd l r) (pathResolve cwd r.inBuf)
    · exact TaskFd.isEnd_of_not_isPipe (hropen hopen) pi true
    · rw [hrfail hopen, hg]
      simp
  have hfr : f'.isEnd pi false = false := by
    by_cases hopen : l.outFile = true ∧ OutputOpens s.fs (pathResolve cwd r.outBuf) l.outAppend
    · exact TaskFd.isEnd_of_not_isPipe (hlopen hopen) pi false
    · rw [hlfail hopen, hf]
      simp
  rw [hw', hr', hf'.count (by decide), hf'.count (by decide), hg'.count (by decide),
    hg'.count (by decide), hgw, hfr]
  constructor
  · rintro ⟨hwriters, hreaders, -⟩ (hopen | hopen)
    · rw [TaskFd.isEnd_of_not_isPipe (hlopen hopen)] at hwriters
      simp at hwriters
    · rw [TaskFd.isEnd_of_not_isPipe (hropen hopen)] at hreaders
      simp at hreaders
  · intro hkeep
    obtain rfl : f' = f := hlfail fun hopen => hkeep (.inl hopen)
    obtain rfl : g' = g := hrfail fun hopen => hkeep (.inr hopen)
    refine ⟨by simp [hf], by simp [hg], hf'.release (by decide) hpi hf hw' ?_⟩
    exact (congrArg (fun ps : Pipes => (ps pi).avail) hpipes).trans hempty

/-- What `cmd_pipe` has done when it adds its tasks. -/
theorem cmdPipe_launch {s s' : System} {cwd left right : CStr}
    {loadLeft loadRight : CStr → Option Nat}
    (h : cmdPipe s cwd left right loadLeft loadRight = .launch pi lt rt s') :
    ∃ ps, pipeAlloc s.pipes = (some pi, ps) ∧
      s' = ((({ s with toSched := { s.toSched with pipes := ps } }.create lt).pipeEnd lt 1 pi
        true).create rt
        |>.pipeEnd rt 0 pi false).applyRedirects cwd lt rt (stripRedirects left.chars).2
          (stripRedirects right.chars).2 := by
  unfold cmdPipe at h
  dsimp only at h
  split at h
  · simp at h
  · simp at h
  · split at h
    · simp at h
    · rename_i ps halloc
      split at h
      · simp at h
      · split at h
        · simp at h
        · obtain ⟨rfl, rfl, rfl, rfl⟩ := h
          exact ⟨ps, halloc, rfl⟩

/-- **The counters of a pipeline.**  When `cmd_pipe` adds its tasks, the counters of the pipe
are the numbers of its ends in their tables exactly if no redirection replaces an end.
Then the reader of the pipe sees the end of the data once the left task has exited. -/
theorem pipeline_counted_iff {s s' : System} {cwd left right : CStr}
    {loadLeft loadRight : CStr → Option Nat}
    {pi lt rt : Nat} (h : cmdPipe s cwd left right loadLeft loadRight = .launch pi lt rt s')
    (hne : lt ≠ rt) :
    ((s'.pipes pi).nwriters =
        endsIn (s'.tasks lt).fdTable pi true + endsIn (s'.tasks rt).fdTable pi true ∧
      (s'.pipes pi).nreaders =
        endsIn (s'.tasks lt).fdTable pi false + endsIn (s'.tasks rt).fdTable pi false ∧
      ((s'.releasePipeFds lt).pipes pi).Ended) ↔
        ¬ReplacesEnd s.fs cwd (stripRedirects left.chars).2 (stripRedirects right.chars).2 := by
  obtain ⟨ps, halloc, rfl⟩ := cmdPipe_launch h
  obtain ⟨hpi, -, -, rfl⟩ := pipeAlloc_some halloc
  obtain ⟨f, g, hf, hg, hlt, hrt⟩ := System.onlyEnds { s with toSched := { s.toSched with
    pipes := update s.pipes pi { s.pipes pi with
      head := 0, tail := 0, nreaders := 1, nwriters := 1 } } } hne pi
  refine System.counted_applyRedirects hpi ?_ ?_ ?_ hne _ _ hf hg hlt hrt
  · simp [System.pipeEnd, System.setFd, System.create, Sched.modify, Sched.taskCreateUser]
  · simp [System.pipeEnd, System.setFd, System.create, Sched.modify, Sched.taskCreateUser]
  · simp [System.pipeEnd, System.setFd, System.create, Sched.modify, Sched.taskCreateUser,
      Pipe.avail]

/-- The names "seq" and "wc". -/
def seqName : List UInt8 := [115, 101, 113]
def wcName : List UInt8 := [119, 99]

/-- A directory with the programs "/bin/seq" and "/bin/wc". -/
def dirBin : Bytes :=
  setEntry (setEntry (fun _ => 0) 0 (pathResolve binPath (CStr.ofBytes seqName)) 7 1 alfsFlagUsed) 1
    (pathResolve binPath (CStr.ofBytes wcName)) 8 1 alfsFlagUsed

/-- Loaders for the files of `dirBin`, when `kmalloc` returns `a`. -/
def loadAt (a : Nat) (path : CStr) : Option Nat :=
  if 0 ≤ alfsFind (blankFs dirBin) (some path) then some a else none

/-- The line "seq|wc". -/
theorem pipeline_counted_seq_wc : ∃ s',
    cmdPipe (bootSystem dirBin) rootPath (CStr.ofBytes seqName) (CStr.ofBytes wcName)
      (loadAt 2) (loadAt 3) =
      .launch 0 2 3 s' ∧ endsIn (s'.tasks 2).fdTable 0 true = 1 ∧
    (s'.pipes 0).nwriters =
      endsIn (s'.tasks 2).fdTable 0 true + endsIn (s'.tasks 3).fdTable 0 true ∧
    ((s'.releasePipeFds 2).pipes 0).Ended := by
  have hrun : (match cmdPipe (bootSystem dirBin) rootPath (CStr.ofBytes seqName)
      (CStr.ofBytes wcName)
      (loadAt 2) (loadAt 3) with
    | .launch pi lt rt s' => pi == 0 && lt == 2 && rt == 3 &&
        endsIn (s'.tasks 2).fdTable 0 true == 1
    | .gaveUp _ => false) = true := by decide +kernel
  split at hrun
  · rename_i pi lt rt s' h
    simp only [Bool.and_eq_true, beq_iff_eq] at hrun
    obtain ⟨⟨⟨rfl, rfl⟩, rfl⟩, hend⟩ := hrun
    have hplain : (stripRedirects (CStr.ofBytes seqName).chars).2.outFile = false ∧
        (stripRedirects (CStr.ofBytes wcName).chars).2.inFile = false := by decide +kernel
    have hcounted := (pipeline_counted_iff h (by decide)).mpr (by simp [ReplacesEnd, hplain])
    exact ⟨s', h, hend, hcounted.1, hcounted.2.2⟩
  · simp at hrun

/-- The line "seq>x|wc": nobody holds the write end, and yet it is counted; "wc" waits for
ever. -/
theorem pipeline_end_lost : ∃ s',
    cmdPipe (bootSystem dirBin) rootPath (CStr.ofBytes (seqName ++ [greater, 120]))
      (CStr.ofBytes wcName)
      (loadAt 2) (loadAt 3) = .launch 0 2 3 s' ∧ (s'.pipes 0).nwriters = 1 ∧
    endsIn (s'.tasks 2).fdTable 0 true = 0 ∧ endsIn (s'.tasks 3).fdTable 0 true = 0 ∧
    ¬((s'.releasePipeFds 2).pipes 0).Ended := by
  have hrun : (match cmdPipe (bootSystem dirBin) rootPath (CStr.ofBytes (seqName ++ [greater, 120]))
      (CStr.ofBytes wcName) (loadAt 2) (loadAt 3) with
    | .launch pi lt rt s' => pi == 0 && lt == 2 && rt == 3 && (s'.pipes 0).nwriters == 1 &&
        endsIn (s'.tasks 2).fdTable 0 true == 0 && endsIn (s'.tasks 3).fdTable 0 true == 0 &&
        (pipeRead 0 1 0 ((s'.releasePipeFds 2).pipes 0) onesMachine).all fun r => !r.1.2
    | .gaveUp _ => false) = true := by decide +kernel
  split at hrun
  · rename_i pi lt rt s' h
    simp only [Bool.and_eq_true, beq_iff_eq] at hrun
    obtain ⟨⟨⟨⟨⟨⟨rfl, rfl⟩, rfl⟩, hw⟩, hl⟩, hr⟩, hread⟩ := hrun
    refine ⟨s', h, hw, hl, hr, fun hended => ?_⟩
    rw [hended 0 1 onesMachine] at hread
    simp at hread
  · simp at hrun

/-! ## the files of the two commands -/

/-- The redirections of one command: `redir_setup_read` for its input, `redir_setup_write` for
its output. -/
def System.redirectTask (s : System) (cwd : CStr) (a : Nat) (f : FileNames) : System :=
  let s :=
    match f.input with
    | some name => (redirSetupRead s cwd a 0 (CStr.ofBytes name)).2
    | none => s
  match f.output with
  | some (name, append) => (redirSetupWrite s cwd a 1 (CStr.ofBytes name) append).2
  | none => s

/-- The files that `cmd_pipe` redirects the left and the right task to: `l_in` and `l_out`
point to the same buffers as `r_in` and `r_out`. -/
def pipeFiles (left right : CStr) : FileNames × FileNames :=
  let l := (stripRedirects left.chars).2
  let r := (stripRedirects right.chars).2
  ({ l with inBuf := r.inBuf, outBuf := r.outBuf }.fileNames, r.fileNames)

/-- A file of the left command is a file of the right command, too, and the names fit. -/
structure Unmixed (l r : FileNames) : Prop where
  fits : r.Fits
  input : l.input = none ∨ l.input = r.input
  output : l.output = none ∨ l.output.map (·.1) = r.output.map (·.1)

theorem System.redirectTask_fileNames (s : System) (cwd : CStr) (a : Nat) (r : Redirects) :
    s.redirectTask cwd a r.fileNames =
      let s := if r.inFile then (redirSetupRead s cwd a 0 r.inBuf).2 else s
      if r.outFile then (redirSetupWrite s cwd a 1 r.outBuf r.outAppend).2 else s := by
  cases hin : r.inFile <;> cases hout : r.outFile <;>
    simp [System.redirectTask, Redirects.fileNames, hin, hout, CStr.ofBytes_chars]

theorem namedFiles_input_ne {s name : List UInt8} (h : (namedFiles (redirs s)).input = some name) :
    name ≠ [] := by
  obtain ⟨f, hf, rfl⟩ := Option.map_eq_some_iff.mp h
  exact name_ne_nil_of_mem_redirs (List.mem_of_mem_filter (List.mem_of_getLast? hf))

theorem namedFiles_output_ne {s name : List UInt8} {a : Bool}
    (h : (namedFiles (redirs s)).output = some (name, a)) :
    name ≠ [] := by
  obtain ⟨f, hf, heq⟩ := Option.map_eq_some_iff.mp h
  obtain rfl := congrArg Prod.fst heq
  exact name_ne_nil_of_mem_redirs (List.mem_of_mem_filter (List.mem_of_getLast? hf))

section

variable {l r : Redirects} {wl wr : FileNames}

/-- The input of the left command, read from the buffer of the right one. -/
theorem Redirects.Holds.input_iff (hr : r.Holds wr) (hl : l.Holds wl) (hfits : wr.Fits)
    (hne : ∀ name, wl.input = some name → name ≠ []) :
    (if l.inFile then some r.inBuf.chars else none) = wl.input ↔ wl.input = none ∨
      wl.input = wr.input := by
  have hbuf : r.inBuf.chars = wr.input.getD [] := by
    rw [hr.inBuf]
    cases hw : wr.input with
    | none => rfl
    | some name => exact List.take_of_length_le (hfits.1 name hw)
  rw [hl.inFile, hbuf]
  cases hw : wl.input with
  | none => simp
  | some name =>
    have hname := hne name hw
    cases wr.input with
    | none => simp [hname.symm]
    | some name' => simp [eq_comm]

/-- The output of the left command, read from the buffer of the right one. -/
theorem Redirects.Holds.output_iff (hr : r.Holds wr) (hl : l.Holds wl) (hfits : wr.Fits)
    (hne : ∀ name a, wl.output = some (name, a) → name ≠ []) :
    (if l.outFile then some (r.outBuf.chars, l.outAppend) else none) = wl.output ↔
      wl.output = none ∨ wl.output.map (·.1) = wr.output.map (·.1) := by
  have hbuf : r.outBuf.chars = (wr.output.map (·.1)).getD [] := by
    rw [hr.outBuf]
    cases hw : wr.output with
    | none => rfl
    | some o => exact List.take_of_length_le (hfits.2 o.1 o.2 hw)
  rw [hl.outFile, hl.outAppend, hbuf]
  cases hw : wl.output with
  | none => simp
  | some o =>
    have hname := hne o.1 o.2 hw
    cases wr.output with
    | none => simp [Prod.ext_iff, hname.symm]
    | some o' => simp [Prod.ext_iff, eq_comm]

end

/-- **The files of a pipeline.**  What `cmd_pipe` does is to redirect the left task and then
the right task to the files of `pipeFiles`.  These are the files that are written in the two
commands exactly if every file of the left command is also the file of the right one. -/
theorem pipeFiles_iff (left right : CStr) :
    (∀ (s : System) (cwd : CStr) (lt rt : Nat),
      s.applyRedirects cwd lt rt (stripRedirects left.chars).2 (stripRedirects right.chars).2 =
        (s.redirectTask cwd lt (pipeFiles left right).1).redirectTask cwd rt
          (pipeFiles left right).2) ∧
    (pipeFiles left right = (namedFiles (redirs left.chars), namedFiles (redirs right.chars)) ↔
      Unmixed (namedFiles (redirs left.chars)) (namedFiles (redirs right.chars))) := by
  refine ⟨fun s cwd lt rt => ?_, ?_⟩
  · rw [pipeFiles, System.redirectTask_fileNames, System.redirectTask_fileNames]
    rfl
  · have hl := stripRedirects_holds left
    have hr := stripRedirects_holds right
    have hne : ∀ name, (namedFiles (redirs left.chars)).input = some name → name ≠ [] :=
      fun _ => namedFiles_input_ne
    have hne' : ∀ name a, (namedFiles (redirs left.chars)).output = some (name, a) → name ≠ [] :=
      fun _ _ => namedFiles_output_ne
    rw [pipeFiles, Prod.mk.injEq, hr.fileNames, FileNames.cut_eq_iff]
    generalize namedFiles (redirs right.chars) = wr at hr ⊢
    constructor
    · rintro ⟨hleft, hfits⟩
      have hin := congrArg FileNames.input hleft
      have hout := congrArg FileNames.output hleft
      exact ⟨hfits, (hr.input_iff hl hfits hne).mp hin, (hr.output_iff hl hfits hne').mp hout⟩
    · rintro ⟨hfits, hin, hout⟩
      exact ⟨FileNames.ext ((hr.input_iff hl hfits hne).mpr hin)
        ((hr.output_iff hl hfits hne').mpr hout), hfits⟩

theorem pipeFiles_overwritten :
    (pipeFiles (.ascii "ls >a") (.ascii "wc >b")).1 = ⟨none, some ((CStr.ascii "b").chars, false)⟩ ∧
    namedFiles (redirs (CStr.ascii "ls >a").chars) =
      ⟨none, some ((CStr.ascii "a").chars, false)⟩ := by
  constructor <;> decide +kernel

end AliOS
