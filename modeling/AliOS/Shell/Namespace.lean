import AliOS.Alfs.Namespace
import AliOS.Shell
import AliOS.Shell.Files
import AliOS.System

/-!
# AliOS.Shell.Namespace

The names in the directory, through every run of the shell and of the programs it starts.
The commands that make an entry, the redirections of output and `sys_open_w` resolve a path
and check whether there is an entry of that name; none looks at the parent of the path, at
its length, or whether it is the root.  So the entries stay a tree as long as no new path
is the root, is longer than a name can be, or has a parent that is no directory.

`rmdir` and `rm` are safe as they are, and so is writing to a descriptor: it makes an entry
only under a name it has read from the directory.
-/

namespace AliOS

open Lib Option

/-! ## steps and runs -/

/-- The shell runs a command on files, or what else it does and happens around it. -/
inductive PromptOp where
  | file (cwd : CStr) (c : FileCmd)
  | shell (op : ShellOp)

/-- A command is run at the prompt.  The calls of `alfs.c` are made by commands and system
calls, not by themselves. -/
def PromptOp.allowed (σ : Shell) : PromptOp → Bool
  | .file _ _ => σ.atPrompt
  | .shell (.sys (.alfs _)) => false
  | .shell op => op.allowed σ

def Shell.command (e : Surroundings) (σ : Shell) : PromptOp → Option Shell
  | .file cwd c => some { σ with fs := (c.run (σ.fs.withScript e.disk) cwd).2 }
  | .shell op => σ.step e op

/-- The states reached from `σ₀` by steps that satisfy `ok`. -/
inductive PromptRun (ok : Shell → PromptOp → Prop) (σ₀ : Shell) : Shell → Prop where
  | nil : PromptRun ok σ₀ σ₀
  | step {σ σ' : Shell} (e : Surroundings) (op : PromptOp) :
      PromptRun ok σ₀ σ → op.allowed σ = true → ok σ op → σ.command e op = some σ' →
        PromptRun ok σ₀ σ'

/-! ## new paths -/

/-- The path a command may make an entry for. -/
def FileCmd.makes (fs : Fs) (cwd : CStr) : FileCmd → Option CStr
  | .mkdir arg | .touch arg => if arg.chars = [] then none else some (pathResolve cwd arg)
  | .rmdir _ | .rm _ => none
  | .cp src dst _ =>
    if src.chars = [] ∨ dst.chars = [] ∨ alfsFind fs (some (pathResolve cwd src)) < 0 then none
    else some (pathResolve cwd dst)
  | .mv src dst _ =>
    if src.chars = [] ∨ dst.chars = [] ∨ alfsFind fs (some (pathResolve cwd src)) < 0 ∨
      alfsIsDir fs (alfsFind fs (some (pathResolve cwd src))) then none
    else some (pathResolve cwd dst)

/-- The path a step may make an entry for.  The redirections of both commands of a pipe take
their names from the same buffer. -/
def PromptOp.makes (σ : Shell) : PromptOp → Option CStr
  | .file cwd c => c.makes σ.fs cwd
  | .shell (.run cwd arg _) =>
    let r := (stripRedirects arg.chars).2
    if r.outFile then some (pathResolve cwd r.outBuf) else none
  | .shell (.pipe cwd left right _ _) =>
    let l := (stripRedirects left.chars).2
    let r := (stripRedirects right.chars).2
    if l.outFile ∨ r.outFile then some (pathResolve cwd r.outBuf) else none
  | .shell (.sys (.call (.openW uname _))) => some (pathResolve σ.cur.cwd uname)
  | .shell _ => none

/-- If the path names no entry, it is not the root, fits into a name, and its parent is the
root or a directory. -/
def NewInPlace (dir : Bytes) (p : CStr) : Prop :=
  findEntry dir p = none → p ≠ rootPath ∧ p.length < alfsNameMax ∧ HasParent dir p

instance (dir : Bytes) (p : CStr) : Decidable (NewInPlace dir p) :=
  inferInstanceAs (Decidable (_ → _))

def PromptOp.InPlace (σ : Shell) (op : PromptOp) : Prop :=
  ∀ p, op.makes σ = some p → NewInPlace σ.fs.dir p

theorem PromptOp.inPlace_of_all {σ : Shell} {op : PromptOp}
    (h : (op.makes σ).all (fun p => decide (NewInPlace σ.fs.dir p))) : op.InPlace σ := by
  intro p hp
  rw [hp] at h
  exact of_decide_eq_true h

theorem WellNamed.placed {dir : Bytes} (h : WellNamed dir) {base input : CStr}
    (hnew : NewInPlace dir (pathResolve base input)) : Placed dir (pathResolve base input) := by
  cases hfind : findEntry dir (pathResolve base input) with
  | some i => exact (h.of_find hfind).2
  | none =>
    obtain ⟨hroot, hfits, hparent⟩ := hnew hfind
    exact ⟨hfits, canonical_pathResolve hroot (Nat.lt_trans hfits (by decide)), hparent⟩

/-! ## commands -/

section

variable {fs : Fs} {cwd : CStr}

/-- `rmdir` has looked at every entry. -/
theorem noChildren_spec (hready : fs.ready) {path : CStr} (h : noChildren fs path) {i : Nat}
    (hi : i < alfsMaxFiles) (hu : entryUsed fs.dir i) : pathParent (entryPath fs.dir i) ≠ path := by
  have hstat : alfsStat fs i = some (slice fs.dir (64 * i) alfsNameMax, entrySize fs.dir i) := by
    simp [alfsStat, hready, hi, hu]
  have hall := List.all_eq_true.mp h i (by simp [hi])
  rw [hstat] at hall
  exact of_decide_eq_true hall

/-- A file is not the parent of anything. -/
theorem WellNamed.alfsDelete_file (h : WellNamed fs.dir) {n : CStr}
    (hfile : ∀ i, findEntry fs.dir n = some i → entryDir fs.dir i = false) :
    WellNamed (AliOS.alfsDelete fs (some n)).2.dir :=
  h.alfsDelete fun i hfind hdir => by simp [hfile i hfind] at hdir

theorem WellNamed.cmdMkdir (h : WellNamed fs.dir) {arg : CStr}
    (hp : arg.chars ≠ [] → NewInPlace fs.dir (pathResolve cwd arg)) :
    WellNamed (cmdMkdir fs cwd arg).2.dir := by
  unfold AliOS.cmdMkdir
  split
  · exact h
  · rename_i harg
    dsimp only
    split
    · exact h
    · exact h.alfsMkdir (h.placed (hp harg))

theorem WellNamed.cmdTouch (h : WellNamed fs.dir) {name : CStr}
    (hp : name.chars ≠ [] → NewInPlace fs.dir (pathResolve cwd name)) :
    WellNamed (cmdTouch fs cwd name).2.dir := by
  unfold AliOS.cmdTouch
  split
  · exact h
  · rename_i hname
    dsimp only
    split
    · exact h
    · exact h.alfsWrite (h.placed (hp hname)) _ (by decide)

theorem WellNamed.cmdRmdir (h : WellNamed fs.dir) (arg : CStr) :
    WellNamed (cmdRmdir fs cwd arg).2.dir := by
  unfold AliOS.cmdRmdir
  split
  · exact h
  · dsimp only
    split
    · exact h
    · rename_i hidx
      split
      · exact h
      · rename_i hempty
        obtain ⟨-, hready, -, -⟩ := alfsFind_nonneg fun hneg => hidx (.inl hneg)
        exact h.alfsDelete fun _ _ _ j hj hu => noChildren_spec hready (by simpa using hempty) hj hu

/-- A found entry that is no directory. -/
theorem file_of_alfsFind {n : CStr} (hfound : ¬alfsFind fs (some n) < 0)
    (hfile : ¬alfsIsDir fs (alfsFind fs (some n))) {i : Nat} (hfind : findEntry fs.dir n = some i) :
    entryDir fs.dir i = false := by
  obtain ⟨j, hready, hj, heq⟩ := alfsFind_nonneg hfound
  obtain rfl := some.inj (hj.symm.trans hfind)
  simpa [heq, alfsIsDir, hready, (findEntry_eq_some.mp hj).1] using hfile

theorem WellNamed.cmdRm (h : WellNamed fs.dir) (name : CStr) :
    WellNamed (cmdRm fs cwd name).2.dir := by
  unfold AliOS.cmdRm
  split
  · exact h
  · dsimp only
    split
    · exact h
    · rename_i hfound
      split
      · exact h
      · rename_i hfile
        exact h.alfsDelete_file fun i hi => file_of_alfsFind hfound hfile hi

/-- `cmd_cp` and `cmd_mv` give up before they have written anything, or end with
`alfs_write`. -/
theorem copyFile_cases (fs : Fs) (idx : Int) (dst : CStr) (mem : Bool) :
    (∃ err fs₁, copyFile fs idx dst mem = (some err, fs₁) ∧ fs₁.dir = fs.dir) ∨
    ∃ fs₁ buf size, fs₁.dir = fs.dir ∧ size < 2 ^ 32 ∧ copyFile fs idx dst mem =
      (if (alfsWrite fs₁ (some dst) (some buf) size).1 < 0 then some .writeError else none,
        (alfsWrite fs₁ (some dst) (some buf) size).2) := by
  unfold copyFile
  split
  · exact .inl ⟨_, _, rfl, rfl⟩
  · have hframe := (alfsRead_frame fs idx (alfsSize fs idx)).2
    split <;> rename_i hread <;> rw [hread] at hframe
    · exact .inl ⟨_, _, rfl, hframe⟩
    · split
      · exact .inl ⟨_, _, rfl, hframe⟩
      · exact .inr ⟨_, _, _, hframe, by omega, rfl⟩

theorem WellNamed.copyFile (h : WellNamed fs.dir) {dst : CStr} (hp : Placed fs.dir dst) (idx : Int)
    (mem : Bool) :
    WellNamed (copyFile fs idx dst mem).2.dir := by
  obtain ⟨err, fs₁, heq, hdir⟩ | ⟨fs₁, buf, size, hdir, hsize, heq⟩ := copyFile_cases fs idx dst mem
  · rw [heq]
    exact hdir ▸ h
  · rw [heq]
    exact WellNamed.alfsWrite (hdir ▸ h) (hdir ▸ hp) _ hsize

theorem WellNamed.cmdCp (h : WellNamed fs.dir) {src dst : CStr} {mem : Bool}
    (hp : ∀ p, (FileCmd.cp src dst mem).makes fs cwd = some p → NewInPlace fs.dir p) :
    WellNamed (cmdCp fs cwd src dst mem).2.dir := by
  unfold AliOS.cmdCp
  split
  · exact h
  · rename_i hargs
    dsimp only
    split
    · exact h
    · rename_i hfound
      exact h.copyFile (h.placed (hp _ (if_neg (by tauto)))) _ mem

/-- The source is still a file when `mv` deletes it. -/
theorem WellNamed.cmdMv (h : WellNamed fs.dir) {src dst : CStr} {mem : Bool}
    (hp : ∀ p, (FileCmd.mv src dst mem).makes fs cwd = some p → NewInPlace fs.dir p) :
    WellNamed (cmdMv fs cwd src dst mem).2.dir := by
  unfold AliOS.cmdMv
  split
  · exact h
  · rename_i hargs
    dsimp only
    split
    · exact h
    · rename_i hfound
      split
      · exact h
      · rename_i hfile
        have hplaced : Placed fs.dir (pathResolve cwd dst) := h.placed (hp _ (if_neg (by tauto)))
        have hcopied := h.copyFile hplaced (alfsFind fs (some (pathResolve cwd src))) mem
        obtain ⟨i0, -, hold, -⟩ := alfsFind_nonneg hfound
        obtain ⟨err, fs₁, heq, -⟩ | ⟨fs₁, buf, size, hdir, hsize, heq⟩ :=
          copyFile_cases fs (alfsFind fs (some (pathResolve cwd src))) (pathResolve cwd dst) mem
        · rw [heq] at hcopied ⊢
          exact hcopied
        · rw [heq] at hcopied ⊢
          by_cases hret : (AliOS.alfsWrite fs₁ (some (pathResolve cwd dst)) (some buf) size).1 < 0
          · simpa only [if_pos hret] using hcopied
          · simp only [if_neg hret]
            refine hcopied.alfsDelete_file fun i hfind => ?_
            rw [← hdir] at hold
            exact alfsWrite_found_other (hdir ▸ h.terminated) hsize (by omega) hold
              (hdir ▸ file_of_alfsFind hfound hfile (hdir ▸ hold)) hfind

/-- Every command keeps the tree if its new path has a place in it. -/
theorem FileCmd.wellNamed (c : FileCmd) (h : WellNamed fs.dir)
    (hp : ∀ p, c.makes fs cwd = some p → NewInPlace fs.dir p) : WellNamed (c.run fs cwd).2.dir := by
  cases c with
  | mkdir arg => exact h.cmdMkdir fun harg => hp _ (if_neg harg)
  | rmdir arg => exact h.cmdRmdir arg
  | touch name => exact h.cmdTouch fun hname => hp _ (if_neg hname)
  | rm name => exact h.cmdRm name
  | cp src dst mem => exact h.cmdCp hp
  | mv src dst mem => exact h.cmdMv hp

end

/-! ## output -/

section

variable {fs : Fs}

theorem keepsDirs_prepareWrite (n : CStr) (append : Bool) :
    KeepsDirs fs.dir (prepareWrite fs n append).2.dir := by
  unfold prepareWrite
  dsimp only
  split
  · exact fun j _ _ _ => .refl _ _
  · exact keepsDirs_alfsWrite n _ (by decide)

theorem WellNamed.prepareWrite (h : WellNamed fs.dir) {n : CStr} (hn : Placed fs.dir n)
    (append : Bool) :
    WellNamed (prepareWrite fs n append).2.dir := by
  unfold AliOS.prepareWrite
  dsimp only
  split
  · exact h
  · exact h.alfsWrite hn _ (by decide)

end

section

variable {s : System} {cwd : CStr}

theorem redirSetupRead_ite_fs (s : System) (cwd : CStr) (a fd : Nat) (path : CStr) (c : Bool) :
    (if c then (redirSetupRead s cwd a fd path).2 else s).fs = s.fs := by
  cases c with
  | true => exact redirSetupRead_fs s cwd a fd path
  | false => rfl

/-- A redirection of output that is there or not. -/
theorem WellNamed.redirect (h : WellNamed s.fs.dir) {path : CStr} {c : Bool}
    (hp : c → Placed s.fs.dir (pathResolve cwd path)) (a fd : Nat) (append : Bool) :
    WellNamed (if c then (redirSetupWrite s cwd a fd path append).2 else s).fs.dir ∧
      KeepsDirs s.fs.dir (if c then (redirSetupWrite s cwd a fd path append).2 else s).fs.dir := by
  cases c with
  | true =>
    simp only [if_true, redirSetupWrite_fs]
    exact ⟨h.prepareWrite (hp rfl) append, keepsDirs_prepareWrite _ append⟩
  | false => exact ⟨h, fun j _ _ _ => .refl _ _⟩

theorem WellNamed.cmdRun (h : WellNamed s.fs.dir) {arg : CStr} {load : CStr → Option Nat}
    {ut : Nat} {s' : System} (hp : (stripRedirects arg.chars).2.outFile →
      NewInPlace s.fs.dir (pathResolve cwd (stripRedirects arg.chars).2.outBuf))
    (hrun : cmdRun s cwd arg load = some (ut, s')) : WellNamed s'.fs.dir := by
  unfold AliOS.cmdRun at hrun
  dsimp only at hrun
  split at hrun
  · simp at hrun
  · obtain ⟨a, -, heq⟩ := map_eq_some_iff.mp hrun
    obtain ⟨-, rfl⟩ := Prod.mk.inj heq
    have hfs := redirSetupRead_ite_fs ((s.create a).setCwd a cwd) cwd a 0
      (stripRedirects arg.chars).2.inBuf
      (stripRedirects arg.chars).2.inFile
    refine (WellNamed.redirect ?_ (fun hout => ?_) a 1 _).1
    · rw [hfs]
      exact h
    · rw [hfs]
      exact h.placed (hp hout)

/-- Both outputs go to the same path. -/
theorem WellNamed.applyRedirects (h : WellNamed s.fs.dir) {l r : Redirects}
    (hp : l.outFile ∨ r.outFile → NewInPlace s.fs.dir (pathResolve cwd r.outBuf)) (lt rt : Nat) :
    WellNamed (s.applyRedirects cwd lt rt l r).fs.dir := by
  unfold System.applyRedirects
  dsimp only
  have hfs1 := redirSetupRead_ite_fs s cwd lt 0 r.inBuf l.inFile
  generalize (if l.inFile then (redirSetupRead s cwd lt 0 r.inBuf).2 else s) = s₁ at hfs1 ⊢
  rw [← hfs1] at h hp
  obtain ⟨h2, hdirs⟩ := h.redirect (fun hout => h.placed (hp (.inl hout))) lt 1 l.outAppend
  generalize (if l.outFile then (redirSetupWrite s₁ cwd lt 1 r.outBuf l.outAppend).2 else s₁) =
    s2 at h2 hdirs ⊢
  have hfs3 := redirSetupRead_ite_fs s2 cwd rt 0 r.inBuf r.inFile
  rw [← hfs3] at h2 hdirs
  exact (h2.redirect (fun hout => hdirs.placed (h.placed (hp (.inr hout)))) rt 1 r.outAppend).1

theorem System.pipeEnd_fs (s : System) (a fd pi : Nat) (w : Bool) :
    ((s.create a).pipeEnd a fd pi w).fs = s.fs := rfl

/-- The state `cmd_pipe` leaves. -/
def Launch.state : Launch → System
  | .gaveUp s => s
  | .launch _ _ _ s => s

theorem WellNamed.cmdPipe (h : WellNamed s.fs.dir) {left right : CStr}
    (hp : (stripRedirects left.chars).2.outFile ∨ (stripRedirects right.chars).2.outFile →
      NewInPlace s.fs.dir (pathResolve cwd (stripRedirects right.chars).2.outBuf))
    (loadLeft loadRight : CStr → Option Nat) :
    WellNamed (cmdPipe s cwd left right loadLeft loadRight).state.fs.dir := by
  unfold AliOS.cmdPipe
  dsimp only
  split
  · exact h
  · exact h
  · split
    · exact h
    · split
      · exact h
      · split
        · exact h
        · apply WellNamed.applyRedirects
          · rw [System.pipeEnd_fs, System.pipeEnd_fs]
            exact h
          · rw [System.pipeEnd_fs, System.pipeEnd_fs]
            exact hp

end

/-! ## system calls -/

section

variable {k : Kernel} {cwd : CStr}

theorem WellNamed.sysOpenW (h : WellNamed k.fs.dir) {uname : CStr}
    (hp : NewInPlace k.fs.dir (pathResolve cwd uname)) (append : Bool) :
    WellNamed (sysOpenW k cwd uname append).2.fs.dir := by
  have hprepared := h.prepareWrite (h.placed hp) append
  unfold AliOS.sysOpenW
  split
  · exact h
  · dsimp only
    split
    · exact hprepared
    · split <;> exact hprepared

/-- The name that `file_write` uses is in the directory. -/
theorem WellNamed.storeFile (h : WellNamed k.fs.dir) {writeBuf : Bytes} {fd total len : Nat}
    (htotal : total < 2 ^ 32) : WellNamed (k.storeFile writeBuf fd total len).2.fs.dir := by
  unfold Kernel.storeFile
  dsimp only
  split
  · exact h
  · rename_i bytes size hstat
    obtain ⟨i, -, hi, hu, rfl⟩ := alfsStat_eq_some hstat
    have hwritten := h.alfsWrite (h i hi hu) (some writeBuf) htotal
    split <;> exact hwritten

theorem WellNamed.sysWrite (h : WellNamed k.fs.dir) {writeBuf : Bytes} {fd buf len : Nat}
    {r : SysResult × Bytes × Kernel} (hwrite : sysWrite k writeBuf fd buf len = some r) :
    WellNamed r.2.2.fs.dir := by
  obtain heq | ⟨x, hx, heq⟩ | ⟨-, -, x, hx, heq⟩ := sysWrite_cases hwrite <;> rw [heq]
  · exact h
  · exact (Kernel.pipeWriteOn_fs hx).symm ▸ h
  · obtain ⟨-, hstaged⟩ | ⟨k₁, wb, total, hstaged, htotal, rfl⟩ := Kernel.fileWrite_cases hx
    · exact hstaged.dir ▸ h
    · exact WellNamed.storeFile (hstaged.dir ▸ h) htotal

/-- Every call keeps the tree, if the new path of `sys_open_w` has a place in it. -/
theorem FdCall.wellNamed {c : FdCall} {writeBuf : Bytes} {r : Bytes × Kernel}
    (h : WellNamed k.fs.dir)
    (hp : ∀ uname append, c = .openW uname append → NewInPlace k.fs.dir (pathResolve cwd uname))
    (hrun : c.run k cwd writeBuf = some r) : WellNamed r.2.fs.dir := by
  cases c with
  | «open» name =>
    cases hrun
    exact (sysOpen_fs k cwd name).symm ▸ h
  | openW uname append =>
    cases hrun
    exact h.sysOpenW (hp uname append rfl) append
  | read fd buf len =>
    obtain ⟨x, hx, rfl⟩ := map_eq_some_iff.mp hrun
    exact sysRead_dir hx ▸ h
  | readOn pi buf len n =>
    obtain ⟨x, hx, rfl⟩ := map_eq_some_iff.mp hrun
    exact (Kernel.pipeReadOn_fs hx).symm ▸ h
  | write fd buf len =>
    obtain ⟨x, hx, rfl⟩ := map_eq_some_iff.mp hrun
    exact h.sysWrite hx
  | writeOn pi buf len n =>
    obtain ⟨x, hx, rfl⟩ := map_eq_some_iff.mp hrun
    exact (Kernel.pipeWriteOn_fs hx).symm ▸ h
  | close fd =>
    cases hrun
    exact (sysClose_fs k fd).symm ▸ h
  | pipe userFds =>
    obtain ⟨x, hx, rfl⟩ := map_eq_some_iff.mp hrun
    exact (sysPipe_fs hx).symm ▸ h
  | exec =>
    cases hrun
    exact k.execClose_fs.symm ▸ h

end

/-! ## runs -/

section

variable {σ σ' : Shell} {e : Surroundings}

/-- A step of the system, but for the calls of `alfs.c`. -/
theorem WellNamed.sysStep {s s' : System} (h : WellNamed s.fs.dir) {op : SysOp}
    (halfs : ∀ c, op ≠ .alfs c)
    (hp : ∀ uname append, op = .call (.openW uname append) →
      NewInPlace s.fs.dir (pathResolve s.cur.cwd uname))
    (hstep : s.step e op = some s') : WellNamed s'.fs.dir := by
  cases op with
  | sched o =>
    obtain ⟨t, -, rfl⟩ := map_eq_some_iff.mp hstep
    exact h
  | call c =>
    obtain ⟨r, hr, rfl⟩ := map_eq_some_iff.mp hstep
    exact FdCall.wellNamed (k := s.kernel e) h
      (fun uname append hc => hp uname append (congrArg _ hc)) hr
  | alfs c => exact absurd rfl (halfs c)

theorem WellNamed.command (h : WellNamed σ.fs.dir) {op : PromptOp} (hop : op.allowed σ)
    (hp : op.InPlace σ) (hstep : σ.command e op = some σ') : WellNamed σ'.fs.dir := by
  cases op with
  | file cwd c =>
    cases hstep
    have hscript : WellNamed (σ.fs.withScript e.disk).dir := h
    exact c.wellNamed hscript hp
  | shell op =>
    cases op with
    | run cwd arg mem =>
      simp only [Shell.command, Shell.step] at hstep
      split at hstep
      · cases hstep
        exact h
      · rename_i ut s hrun
        cases hstep
        exact WellNamed.cmdRun (s := { σ.toSystem with fs := σ.fs.withScript e.disk }) h
          (fun hout => hp _ (if_pos hout)) hrun
    | pipe cwd left right lmem rmem =>
      have hpipe := WellNamed.cmdPipe (s := { σ.toSystem with fs := σ.fs.withScript e.disk }) h
        (fun hout => hp _ (if_pos hout)) (fun _ => lmem) fun _ => rmem
      simp only [Shell.command, Shell.step] at hstep
      split at hstep <;> rename_i hcmd <;> rw [hcmd] at hpipe <;> obtain rfl := some.inj hstep
      · exact hpipe
      · exact hpipe
    | next =>
      simp only [Shell.command, Shell.step] at hstep
      split at hstep
      · simp at hstep
      · obtain ⟨s, hs, rfl⟩ := map_eq_some_iff.mp hstep
        exact h.sysStep (by simp) (by simp) hs
    | sys op =>
      obtain ⟨s, hs, rfl⟩ := map_eq_some_iff.mp hstep
      refine h.sysStep (fun c hc => ?_) (fun uname append hc => ?_) hs
      · subst hc
        simp [PromptOp.allowed] at hop
      · subst hc
        exact hp _ rfl

/-- **The namespace**: in every run from a tree of names whose commands, redirections and
calls of `sys_open_w` make new entries only in their place, the names are a tree in every
state reached. -/
theorem wellNamed_of_run {σ₀ σ : Shell} (h₀ : WellNamed σ₀.fs.dir)
    (hrun : PromptRun (fun σ op => op.InPlace σ) σ₀ σ) : WellNamed σ.fs.dir := by
  induction hrun with
  | nil => exact h₀
  | step e op _ hop hp hstep ih => exact ih.command hop hp hstep

/-! ## a directory and a file in it -/

/-- The state after a command of the shell in the root directory. -/
def Shell.atRoot (σ : Shell) (c : FileCmd) : Shell :=
  { σ with fs := (c.run (σ.fs.withScript []) rootPath).2 }

theorem PromptRun.atRoot {ok : Shell → PromptOp → Prop} {σ₀ σ : Shell} (hrun : PromptRun ok σ₀ σ)
    {c : FileCmd}
    (hat : σ.atPrompt) (hok : ok σ (.file rootPath c)) : PromptRun ok σ₀ (σ.atRoot c) :=
  .step ⟨0, onesMachine, []⟩ (.file rootPath c) hrun hat hok rfl

/-- The string "a/b". -/
def nameAB : CStr := ⟨[97, slash, 98], by simp [slash]⟩

theorem wellNamed_blank : WellNamed fun _ => 0 :=
  fun i hi hu => by simp [entryUsed_blank i hi] at hu

theorem atPrompt_bootShell (dir : Bytes) : (bootShell dir).atPrompt := rfl

/-- "mkdir a", then "touch a/b". -/
def nestedShell : Shell := ((bootShell fun _ => 0).atRoot (.mkdir letterA)).atRoot (.touch nameAB)

theorem wellNamed_of_run_nested :
    PromptRun (fun σ op => op.InPlace σ) (bootShell fun _ => 0) nestedShell ∧
      WellNamed nestedShell.fs.dir ∧
      (List.range 3).map (entryUsed nestedShell.fs.dir) = [true, true, false] := by
  have hmkdir : PromptRun (fun σ op => op.InPlace σ) (bootShell fun _ => 0)
      ((bootShell fun _ => 0).atRoot (.mkdir letterA)) :=
    PromptRun.nil.atRoot (atPrompt_bootShell _) (PromptOp.inPlace_of_all (by decide +kernel))
  have htouch : PromptRun (fun σ op => op.InPlace σ) (bootShell fun _ => 0) nestedShell :=
    hmkdir.atRoot (atPrompt_bootShell fun _ => 0)
      (PromptOp.inPlace_of_all (by decide +kernel))
  have hboot : WellNamed (bootShell fun _ => 0).fs.dir := wellNamed_blank
  have hwell := wellNamed_of_run hboot htouch
  exact ⟨htouch, hwell, by decide +kernel⟩

/-- "touch a/b" without the directory "a". -/
def orphanShell : Shell := (bootShell fun _ => 0).atRoot (.touch nameAB)

/-- The new entry has a parent that is no directory. -/
theorem touch_not_wellNamed : WellNamed (bootShell fun _ => 0).fs.dir ∧
    PromptRun (fun _ _ => True) (bootShell fun _ => 0) orphanShell ∧
      ¬WellNamed orphanShell.fs.dir := by
  refine ⟨wellNamed_blank, PromptRun.nil.atRoot (atPrompt_bootShell _) trivial, fun h => ?_⟩
  have hparent : ¬HasParent orphanShell.fs.dir (entryPath orphanShell.fs.dir 0) := by decide +kernel
  exact hparent (h 0 (by decide) (by decide +kernel)).parent

end

end AliOS
