import AliOS.Shell.Pipeline

/-!
# AliOS.Shell

The boot task as the shell (`kernel/shell.c`), in the system with everything else.  A
command that starts programs first makes their tasks, which is one step here; then it
calls the scheduler: it sets the foreground task, adds the new tasks, waits for as many
children and clears the foreground task again.  Between two of these calls, and while
`sched_wait` blocks, other tasks run and interrupts come.  So what the shell has still
to call is a part of the state.
-/

namespace AliOS

open Lib Function Option

/-! ## commands that start programs -/

/-- `t->cwd`, for the task at `a`. -/
def System.setCwd (s : System) (a : Nat) (cwd : CStr) : System :=
  { s with toSched := s.modify a fun t => { t with cwd := cwd } }

/-- `cmd_run` up to `sched_set_foreground`: the new task and the state; `none` when it gives
up, which changes nothing.  `load` makes the task as in `cmdPipe`. -/
def cmdRun (s : System) (cwd arg : CStr) (load : CStr → Option Nat) : Option (Nat × System) :=
  let r := stripRedirects arg.chars
  match tokenise 16 r.1 with
  | [] => none
  | name :: _ =>
    (load (resolveProgram s.fs cwd (CStr.ofBytes name))).map fun ut =>
      let s := (s.create ut).setCwd ut cwd
      let s := if r.2.inFile then (redirSetupRead s cwd ut 0 r.2.inBuf).2 else s
      (ut, if r.2.outFile then (redirSetupWrite s cwd ut 1 r.2.outBuf r.2.outAppend).2 else s)

/-- What `cmd_run` calls then. -/
def runCalls (ut : Nat) : List Op := [.setForeground (some ut), .add ut, .wait, .setForeground none]

/-- What `cmd_pipe` calls then. -/
def pipeCalls (lt rt : Nat) : List Op :=
  [.setForeground (some rt), .add rt, .add lt, .wait, .wait, .setForeground none]

/-! ## the shell and the rest -/

/-- The system, with the calls the command of the shell has still to make. -/
structure Shell extends System where
  todo : List Op

/-- The shell starts a command, with the memory `kmalloc` gives it for tasks, makes the
next call of its command, or something else happens. -/
inductive ShellOp where
  | run (cwd arg : CStr) (mem : Option Nat)
  | pipe (cwd left right : CStr) (lmem rmem : Option Nat)
  | next
  | sys (op : SysOp)

/-- The shell can start a command. -/
def Shell.atPrompt (σ : Shell) : Bool :=
  σ.current == bootTask && σ.cur.resume == .outside && σ.todo.isEmpty

/-- Who takes the step: interrupts come at any time, only other tasks make system calls,
and the other commands of the shell sleep, kill and use files.  `kernel_main` adds a task
before the shell starts. -/
def SysOp.mayCome (σ : Shell) : SysOp → Bool
  | .sched .ctrlc | .sched .tick => true
  | .sched (.create _) | .sched (.add _) => σ.atPrompt
  | .sched (.setForeground _) => false
  | .sched (.fork _) | .sched .yield | .sched .wait | .sched (.exit _) | .call _ =>
    σ.current != bootTask
  | .sched (.sleep _) | .sched (.kill _ _) | .alfs _ => σ.current != bootTask || σ.atPrompt

def ShellOp.allowed (σ : Shell) : ShellOp → Bool
  | .run _ _ mem => σ.atPrompt && mem.all fun a => σ.block a == .free
  | .pipe _ _ _ lmem rmem =>
    σ.atPrompt && (lmem.all fun a => σ.block a == .free) &&
      (rmem.all fun a => σ.block a == .free) &&
      (lmem.isNone || lmem != rmem)
  | .next => σ.current == bootTask && σ.todo.head?.any fun op => op.allowed σ.toSched
  | .sys op => op.allowed σ.toSystem && op.mayCome σ

def Shell.step (e : Surroundings) (σ : Shell) : ShellOp → Option Shell
  | .run cwd arg mem =>
    match cmdRun { σ.toSystem with fs := σ.fs.withScript e.disk } cwd arg fun _ => mem with
    | none => some σ
    | some (ut, s) => some ⟨s, runCalls ut⟩
  | .pipe cwd left right lmem rmem =>
    match cmdPipe { σ.toSystem with fs := σ.fs.withScript e.disk } cwd left right (fun _ => lmem)
      fun _ => rmem with
    | .gaveUp s => some ⟨s, []⟩
    | .launch _ lt rt s => some ⟨s, pipeCalls lt rt⟩
  | .next =>
    match σ.todo with
    | [] => none
    | op :: rest =>
      -- `sched_wait` is called again until it has returned
      (σ.toSystem.step e (.sched op)).map fun s =>
        ⟨s, if (s.tasks bootTask).resume = .inWait then op :: rest else rest⟩
  | .sys op => (σ.toSystem.step e op).map fun s => { σ with toSystem := s }

/-! ## what a command does before its calls -/

section

variable {s s' : System} {l : List Nat}

theorem System.keeps_setFd (s : System) (a fd : Nat) (f : TaskFd) :
    KeepsLinks s.toSched (s.setFd a fd f).toSched :=
  (s.toSched.stores_modify a fun t => { t with fdTable := update t.fdTable fd f }).keeps rfl

theorem keeps_redirSetupRead (s : System) (cwd : CStr) (a fd : Nat) (path : CStr) :
    KeepsLinks s.toSched (redirSetupRead s cwd a fd path).2.toSched := by
  unfold redirSetupRead
  dsimp only
  split
  · exact .refl _
  · exact s.keeps_setFd _ _ _

theorem keeps_redirSetupWrite (s : System) (cwd : CStr) (a fd : Nat) (path : CStr) (append : Bool) :
    KeepsLinks s.toSched (redirSetupWrite s cwd a fd path append).2.toSched := by
  unfold redirSetupWrite
  dsimp only
  split
  · exact .refl _
  · split
    · exact .refl _
    · exact System.keeps_setFd { s with fs := _ } _ _ _

/-- A redirection that is there or not. -/
theorem KeepsLinks.ite {c : Bool} {s₁ : System} (h : KeepsLinks s.toSched s₁.toSched) :
    KeepsLinks s.toSched (if c then s₁ else s).toSched := by
  cases c with
  | true => exact h
  | false => exact .refl _

theorem System.keeps_applyRedirects (s : System) (cwd : CStr) (lt rt : Nat) (l r : Redirects) :
    KeepsLinks s.toSched (s.applyRedirects cwd lt rt l r).toSched := by
  exact ((keeps_redirSetupRead _ _ _ _ _).ite.trans (keeps_redirSetupWrite _ _ _ _ _ _).ite).trans
    ((keeps_redirSetupRead _ _ _ _ _).ite.trans (keeps_redirSetupWrite _ _ _ _ _ _).ite)

/-- From `s` to `s'` the tasks at `new` have been made, and none has been added. -/
structure Makes (s s' : Sched) (new : List Nat) : Prop where
  linked : ∀ {l}, Linked s l → Linked s' l
  block : ∀ a, s'.block a = if a ∈ new then .created else s.block a
  foreground : s'.foreground = s.foreground

theorem KeepsLinks.makes {s s' : Sched} (h : KeepsLinks s s') : Makes s s' [] :=
  ⟨fun hl => hl.keeps h, fun a => by simp [h.block], h.foreground⟩

theorem makes_taskCreateUser {s : Sched} {a : Nat} (ha : s.block a = .free) :
    Makes s (s.taskCreateUser a) [a] where
  linked := fun hl => hl.taskCreateUser (by simp [ha])
  block := fun b => by simp [Sched.taskCreateUser, update_apply]
  foreground := rfl

theorem Makes.trans {s s₁ s2 : Sched} {new new' : List Nat} (h : Makes s s₁ new)
    (h' : Makes s₁ s2 new') :
    Makes s s2 (new' ++ new) where
  linked := fun hl => h'.linked (h.linked hl)
  block := fun a => by
    rw [h'.block, h.block]
    by_cases ha : a ∈ new' <;> simp [ha]
  foreground := h'.foreground.trans h.foreground

/-- A new task is given up. -/
theorem Makes.discard {s : Sched} {s₁ : System} {a : Nat} (h : Makes s s₁.toSched [a])
    (ha : s.block a = .free) : Makes s (s₁.discard a).toSched [] where
  linked := fun hl => by
    have hl1 := h.linked hl
    refine ⟨hl1.ring, fun b => ?_⟩
    show b ∈ s₁.current :: _ ↔ update s₁.block a .free b = _
    rw [hl1.queued b, update_apply, h.block b]
    by_cases hb : b = a <;> simp [hb]
  block := fun b => by
    show update s₁.block a .free b = _
    rw [update_apply, h.block b]
    by_cases hb : b = a <;> simp [hb, ha]
  foreground := h.foreground

/-- `cmd_run` makes one task. -/
theorem cmdRun_makes {cwd arg : CStr} {mem : Option Nat} {ut : Nat}
    (hfree : ∀ a, mem = some a → s.block a = .free)
    (h : cmdRun s cwd arg (fun _ => mem) = some (ut, s')) : Makes s.toSched s'.toSched [ut] := by
  unfold cmdRun at h
  dsimp only at h
  split at h
  · simp at h
  · obtain ⟨a, hload, heq⟩ := map_eq_some_iff.mp h
    obtain ⟨rfl, rfl⟩ := Prod.mk.inj heq
    have hcwd : KeepsLinks (s.create a).toSched ((s.create a).setCwd a cwd).toSched :=
      ((s.create a).toSched.stores_modify a fun t => { t with cwd := cwd }).keeps rfl
    exact (makes_taskCreateUser (hfree a hload)).trans (hcwd.trans
      ((keeps_redirSetupRead _ _ _ _ _).ite.trans (keeps_redirSetupWrite _ _ _ _ _ _).ite)).makes

/-- A new task with one pipe end. -/
theorem System.makes_pipeEnd (s : System) {a : Nat} (ha : s.block a = .free)
    (fd pi : Nat) (w : Bool) :
    Makes s.toSched ((s.create a).pipeEnd a fd pi w).toSched [a] :=
  (makes_taskCreateUser ha).trans ((s.create a).keeps_setFd a fd _).makes

/-- Two tasks have been made, or none. -/
def Launch.Made (s : Sched) : Launch → Prop
  | .gaveUp s' => Makes s s'.toSched []
  | .launch _ lt rt s' => Makes s s'.toSched [rt, lt] ∧ lt ≠ rt

theorem cmdPipe_made (s : System) (cwd left right : CStr) {lmem rmem : Option Nat}
    (hl : ∀ a, lmem = some a → s.block a = .free) (hr : ∀ a, rmem = some a → s.block a = .free)
    (hne : ∀ a, lmem = some a → rmem ≠ some a) :
    (cmdPipe s cwd left right (fun _ => lmem) fun _ => rmem).Made s.toSched := by
  have hpipes : ∀ (s : Sched) (ps : Pipes), KeepsLinks s { s with pipes := ps } :=
    fun _ _ => ⟨rfl, rfl, rfl, rfl, rfl⟩
  unfold cmdPipe
  dsimp only
  split
  · exact (KeepsLinks.refl _).makes
  · exact (KeepsLinks.refl _).makes
  · split
    · exact (KeepsLinks.refl _).makes
    · rename_i pi ps _
      cases lmem with
      | none => exact ((hpipes s.toSched ps).trans (hpipes _ _)).makes
      | some lt =>
        have hlt := hl lt rfl
        have hleft := (hpipes s.toSched ps).makes.trans
          (System.makes_pipeEnd { s with toSched := { s.toSched with pipes := ps } } hlt 1 pi true)
        cases rmem with
        | none => exact (hleft.discard hlt).trans (hpipes _ _).makes
        | some rt =>
          have hlr : lt ≠ rt := fun heq => hne lt rfl (heq ▸ rfl)
          have hrt := (hleft.block rt).trans (if_neg (by simpa using Ne.symm hlr))
          exact ⟨(hleft.trans (System.makes_pipeEnd _ (hrt.trans (hr rt rfl)) 0 pi false)).trans
            (System.keeps_applyRedirects _ _ _ _ _ _).makes, hlr⟩

end

/-! ## what a step can do -/

/-- The steps of the shell and the system. -/
inductive ShellTo (σ : Shell) (e : Surroundings) : ShellOp → Shell → Prop where
  /-- a command gives up -/
  | gaveUp {op : ShellOp} {s : System} (hat : σ.atPrompt = true)
      (hm : Makes σ.toSched s.toSched []) :
      ShellTo σ e op ⟨s, []⟩
  | run {cwd arg : CStr} {mem : Option Nat} {ut : Nat} {s : System} (hat : σ.atPrompt = true)
      (hm : Makes σ.toSched s.toSched [ut]) : ShellTo σ e (.run cwd arg mem) ⟨s, runCalls ut⟩
  | pipe {cwd left right : CStr} {lmem rmem : Option Nat} {lt rt : Nat} {s : System}
      (hat : σ.atPrompt = true) (hm : Makes σ.toSched s.toSched [rt, lt]) (hne : lt ≠ rt) :
      ShellTo σ e (.pipe cwd left right lmem rmem) ⟨s, pipeCalls lt rt⟩
  | next {op : Op} {rest : List Op} {s : System} (htodo : σ.todo = op :: rest)
      (hcur : σ.current = bootTask)
      (hop : op.allowed σ.toSched = true) (hs : σ.toSystem.step e (.sched op) = some s) :
      ShellTo σ e .next ⟨s, if (s.tasks bootTask).resume = .inWait then op :: rest else rest⟩
  | sys {op : SysOp} {s : System} (hop : op.allowed σ.toSystem = true) (hwho : op.mayCome σ = true)
      (hs : σ.toSystem.step e op = some s) : ShellTo σ e (.sys op) ⟨s, σ.todo⟩

theorem Shell.todo_eq_nil {σ : Shell} (h : σ.atPrompt) : σ.todo = [] := by
  simp only [Shell.atPrompt, Bool.and_eq_true, List.isEmpty_iff] at h
  exact h.2

theorem Shell.step_to {σ σ' : Shell} {e : Surroundings} {op : ShellOp} (hop : op.allowed σ)
    (hstep : σ.step e op = some σ') : ShellTo σ e op σ' := by
  cases op with
  | run cwd arg mem =>
    simp only [ShellOp.allowed, Bool.and_eq_true] at hop
    have hfree : ∀ a, mem = some a → σ.block a = .free := fun a ha => by simpa [ha] using hop.2
    simp only [Shell.step] at hstep
    split at hstep
    · cases hstep
      obtain ⟨s, todo⟩ := σ
      obtain rfl : todo = [] := Shell.todo_eq_nil hop.1
      exact .gaveUp hop.1 (KeepsLinks.refl _).makes
    · rename_i ut s hrun
      cases hstep
      exact .run hop.1 (cmdRun_makes (s := { σ.toSystem with fs := σ.fs.withScript e.disk })
        hfree hrun)
  | pipe cwd left right lmem rmem =>
    simp only [ShellOp.allowed, Bool.and_eq_true] at hop
    obtain ⟨⟨⟨hat, hl⟩, hr⟩, hne⟩ := hop
    have hmade := cmdPipe_made { σ.toSystem with fs := σ.fs.withScript e.disk } cwd left right
      (fun a (ha : lmem = some a) => by simpa [ha] using hl)
      (fun a (ha : rmem = some a) => by simpa [ha] using hr)
      fun a ha heq => by simp [ha, heq] at hne
    simp only [Shell.step] at hstep
    split at hstep
    · rename_i s hpipe
      cases hstep
      rw [hpipe] at hmade
      exact .gaveUp hat hmade
    · rename_i lt rt s hpipe
      cases hstep
      rw [hpipe] at hmade
      exact .pipe hat hmade.1 hmade.2
  | next =>
    simp only [ShellOp.allowed, Bool.and_eq_true, beq_iff_eq] at hop
    simp only [Shell.step] at hstep
    split at hstep
    · simp at hstep
    · rename_i op rest htodo
      obtain ⟨s, hs, rfl⟩ := map_eq_some_iff.mp hstep
      rw [htodo, List.head?_cons, any_some] at hop
      exact .next htodo hop.1 hop.2 hs
  | sys op =>
    simp only [ShellOp.allowed, Bool.and_eq_true] at hop
    obtain ⟨s, hs, rfl⟩ := map_eq_some_iff.mp hstep
    exact .sys hop.1 hop.2 hs

/-- Every step keeps the ring of the run queue. -/
theorem ShellTo.linked {σ σ' : Shell} {e : Surroundings} {op : ShellOp} {l : List Nat}
    (hs : ShellTo σ e op σ') (hl : Linked σ.toSched l) : ∃ l', Linked σ'.toSched l' := by
  cases hs with
  | gaveUp _ hm => exact ⟨l, hm.linked hl⟩
  | run _ hm => exact ⟨l, hm.linked hl⟩
  | pipe _ hm => exact ⟨l, hm.linked hl⟩
  | @next op _ _ _ _ hop hs =>
    have hallowed : SysOp.allowed σ.toSystem (.sched op) := hop
    exact System.step_linked hl hallowed hs
  | sys hop _ hs => exact System.step_linked hl hop hs

/-- The system after booting, when `shell_run` is called. -/
def bootShell (dir : Bytes) : Shell := ⟨bootSystem dir, []⟩

end AliOS
