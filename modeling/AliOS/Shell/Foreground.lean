import AliOS.Shell

/-!
# AliOS.Shell.Foreground

`foreground_task`, which Ctrl-C kills.  The shell sets it before it adds the task and
clears it after the last `sched_wait` of the command, and `sched_wait` releases whichever
child it finds first.  So in every run the pointer is to a task of the queue except in
two places: before the task is added, and from its release to the end of the command.

An address can be taken again after it has been released, by another task.  `Watch` keeps
apart the tasks an address has had.
-/

namespace AliOS

open Lib Function List Option

/-! ## which task is meant -/

/-- Tells the tasks of one address apart: how many it has had, which of them was the
foreground task when it was set, and whether that one has been released since. -/
structure Watch where
  births : Nat → Nat
  chosen : Nat
  released : Bool

/-- The task `sched_set_foreground` is called with in a step. -/
def Shell.chooses (σ : Shell) : ShellOp → Option Nat
  | .next =>
    match σ.todo with
    | .setForeground (some t) :: _ => some t
    | _ => none
  | _ => none

/-- The watch after a step from `σ` to `σ'`. -/
def Watch.after (w : Watch) (σ : Shell) (op : ShellOp) (σ' : Shell) : Watch :=
  match σ.chooses op with
  | some t => { w with chosen := w.births t, released := false }
  | none =>
    { w with
      births := fun a =>
        if σ.block a = .free ∧ σ'.block a ≠ .free then w.births a + 1 else w.births a
      released := w.released ||
        σ.foreground.any fun t => σ.block t != .free && σ'.block t == .free }

/-- The states reached from `σ₀`. -/
inductive WatchRun (σ₀ : Shell) : Shell → Watch → Prop where
  | nil : WatchRun σ₀ σ₀ ⟨fun _ => 0, 0, false⟩
  | step {σ σ' : Shell} {w : Watch} (e : Surroundings) (op : ShellOp) :
      WatchRun σ₀ σ w → op.allowed σ = true → σ.step e op = some σ' →
        WatchRun σ₀ σ' (w.after σ op σ')

/-- `foreground_task` is NULL, or it is in the run queue and the task it was set to. -/
def ForegroundLive (σ : Shell) (w : Watch) : Prop :=
  ∀ t, σ.foreground = some t → σ.block t = .queued ∧ w.births t = w.chosen

/-! ## the invariant -/

/-- Calls of a command: a foreground task is added later and cleared at the end, and no task
is added twice. -/
def Calls : List Op → Prop
  | [] => True
  | .setForeground t :: rest =>
    (∀ a, t = some a → .add a ∈ rest ∧ .setForeground none ∈ rest) ∧ Calls rest
  | .add a :: rest => .add a ∉ rest ∧ Calls rest
  | .wait :: rest => Calls rest
  | _ :: _ => False

/-- What holds in every state. -/
structure Watched (σ : Shell) (w : Watch) : Prop where
  calls : Calls σ.todo
  new : ∀ a, .add a ∈ σ.todo → σ.block a = .created
  cleared : σ.foreground ≠ none → .setForeground none ∈ σ.todo
  kept : ∀ t, σ.foreground = some t → w.released = false →
    w.births t = w.chosen ∧ (.add t ∈ σ.todo ∨ σ.block t = .queued)
  gone : ∀ t, σ.foreground = some t → w.released = true →
    w.chosen ≤ w.births t ∧ (w.births t = w.chosen → σ.block t = .free)

section

variable {σ σ' : Shell} {w : Watch} {l : List Nat} {e : Surroundings}

theorem Watched.live_iff (h : Watched σ w) : ForegroundLive σ w ↔
    ∀ t, σ.foreground = some t → .add t ∉ σ.todo ∧ w.released = false := by
  refine forall₂_congr fun t ht => ⟨fun hlive => ⟨fun hadd => ?_, ?_⟩, fun hc => ?_⟩
  · simp [h.new t hadd] at hlive
  · cases hw : w.released with
    | false => rfl
    | true => simp [(h.gone t ht hw).2 hlive.2] at hlive
  · obtain ⟨hbirths, hadd | hq⟩ := h.kept t ht hc.2
    · exact absurd hadd hc.1
    · exact ⟨hq, hbirths⟩

theorem Watched.of_none (hcalls : Calls σ.todo) (hnew : ∀ a, .add a ∈ σ.todo → σ.block a = .created)
    (hfg : σ.foreground = none) : Watched σ w :=
  ⟨hcalls, hnew, fun h => absurd hfg h, fun t ht => by simp [hfg] at ht,
    fun t ht => by simp [hfg] at ht⟩

/-- A step that leaves `foreground_task` alone. -/
theorem Watched.move (h : Watched σ w) {op : ShellOp} (hset : σ.chooses op = none)
    (hfg : σ'.foreground = σ.foreground) (hcalls : Calls σ'.todo)
    (hclear : .setForeground none ∈ σ.todo → .setForeground none ∈ σ'.todo)
    (hnew : ∀ a, .add a ∈ σ'.todo → σ'.block a = .created)
    (hadded : ∀ a, .add a ∈ σ.todo → .add a ∈ σ'.todo ∨ σ'.block a = .queued)
    (hqueued : ∀ a, σ.block a = .queued → σ'.block a ≠ .created) :
    Watched σ' (w.after σ op σ') := by
  unfold Watch.after
  rw [hset]
  refine ⟨hcalls, hnew, fun hsome => hclear (h.cleared (hfg ▸ hsome)), fun t ht hrel => ?_,
    fun t ht hrel => ?_⟩
  · rw [hfg] at ht
    simp only [ht, any_some, Bool.or_eq_false_iff, Bool.and_eq_false_iff, bne_eq_false_iff_eq,
      beq_eq_false_iff_ne] at hrel
    obtain ⟨hbirths, hwhere⟩ := h.kept t ht hrel.1
    have hthere : σ.block t ≠ .free := by
      rcases hwhere with hadd | hq
      · simp [h.new t hadd]
      · simp [hq]
    have hstill : σ'.block t ≠ .free := hrel.2.resolve_left hthere
    refine ⟨by simpa [hthere] using hbirths, ?_⟩
    rcases hwhere with hadd | hq
    · exact hadded t hadd
    · have hcreated := hqueued t hq
      cases hb : σ'.block t with
      | free => exact absurd hb hstill
      | created => exact absurd hb hcreated
      | queued => exact .inr rfl
  · rw [hfg] at ht
    -- either it has been released before, or this step releases it
    by_cases hrel' : w.released = true
    · obtain ⟨hle, hfree⟩ := h.gone t ht hrel'
      dsimp only
      split
      · exact ⟨by omega, fun heq => by omega⟩
      · rename_i hsame
        refine ⟨hle, fun heq => ?_⟩
        by_contra hne
        exact hsame ⟨hfree heq, hne⟩
    · rw [Bool.not_eq_true] at hrel'
      simp only [ht, hrel', any_some, Bool.false_or, Bool.and_eq_true, bne_iff_ne,
        beq_iff_eq] at hrel
      obtain ⟨hbirths, -⟩ := h.kept t ht hrel'
      simp [hrel.1, hrel.2, hbirths]

/-! ## steps -/

/-- A new task stays one until it is added. -/
theorem StepTo.stays {s s' : Sched} {op : Op} (hs : StepTo s l op s') (hl : Linked s l) (a : Nat) :
    (s.block a = .created → s'.block a = .created ∨ op = .add a) ∧
    (s.block a = .queued → s'.block a ≠ .created) := by
  obtain ⟨heq, -⟩ | ⟨b, rfl, hb, heq⟩ | ⟨b, hop, hb, heq⟩ | ⟨b, hb, rfl, -, heq⟩ := hs.memory
  all_goals
    rw [heq]
  · exact ⟨.inl, by simp +contextual⟩
  · by_cases hab : a = b <;> simp_all
  · by_cases hab : a = b
    · subst hab
      rcases hop with rfl | rfl
      · simp [hb]
      · cases hs with
        | fork ha => simp [ha]
    · simp +contextual [hab]
  · have hq : s.block b = .queued := (hl.queued b).mp (mem_cons_of_mem _ hb)
    by_cases hab : a = b <;> simp_all

/-- The same for the steps of the system, which do not touch `foreground_task`. -/
theorem System.step_stays {s s' : System} {op : SysOp} (hl : Linked s.toSched l)
    (hop : op.allowed s) (hset : ∀ t, op ≠ .sched (.setForeground t)) (hs : s.step e op = some s') :
    s'.foreground = s.foreground ∧
      ∀ a, (s.block a = .created → s'.block a = .created ∨ op = .sched (.add a)) ∧
      (s.block a = .queued → s'.block a ≠ .created) := by
  have hsame : ∀ a, s.block a = .queued → s.block a ≠ .created := fun a h => by simp [h]
  cases op with
  | sched o =>
    obtain ⟨t, ht, rfl⟩ := map_eq_some_iff.mp hs
    have hto := hl.step_some hop ht
    exact ⟨hto.foreground fun t heq => hset t (heq ▸ rfl), fun a => by simpa using hto.stays hl a⟩
  | call c =>
    obtain ⟨r, -, rfl⟩ := map_eq_some_iff.mp hs
    exact ⟨rfl, fun a => ⟨.inl, hsame a⟩⟩
  | alfs c =>
    cases hs
    exact ⟨rfl, fun a => ⟨.inl, hsame a⟩⟩

section

variable (h : Watched σ w)

include h

theorem Watched.sys (hl : Linked σ.toSched l) {op : SysOp} {s : System}
    (hop : op.allowed σ.toSystem) (hwho : op.mayCome σ) (hs : σ.toSystem.step e op = some s) :
    Watched ⟨s, σ.todo⟩ (w.after σ (.sys op) ⟨s, σ.todo⟩) := by
  have hset : ∀ t, op ≠ .sched (.setForeground t) := by
    rintro t rfl
    simp [SysOp.mayCome] at hwho
  obtain ⟨hfg, hstays⟩ := System.step_stays hl hop hset hs
  have hnew : ∀ a, .add a ∈ σ.todo → s.block a = .created := by
    intro a ha
    refine ((hstays a).1 (h.new a ha)).resolve_right ?_
    -- `kernel_main` adds a task when no command is running
    rintro rfl
    rw [Shell.todo_eq_nil hwho] at ha
    simp at ha
  exact h.move rfl hfg h.calls id hnew (fun a ha => .inl ha) fun a => (hstays a).2

/-- The shell sets or clears the foreground task. -/
theorem Watched.setForeground {t : Option Nat} {rest : List Op}
    (htodo : σ.todo = .setForeground t :: rest) {s : System} (hblock : s.block = σ.block)
    (hfg : s.foreground = t) : Watched ⟨s, rest⟩ (w.after σ .next ⟨s, rest⟩) := by
  have hcalls := h.calls
  rw [htodo] at hcalls
  have hnew : ∀ a, .add a ∈ rest → s.block a = .created := fun a ha => by
    rw [hblock]
    exact h.new a (htodo ▸ mem_cons_of_mem _ ha)
  cases t with
  | none => exact .of_none hcalls.2 hnew hfg
  | some t =>
    obtain ⟨hadd, hclear⟩ := hcalls.1 t rfl
    simp only [Watch.after, Shell.chooses, htodo]
    refine ⟨hcalls.2, hnew, fun _ => hclear, fun a ha _ => ?_,
      fun _ _ hrel => absurd hrel (by simp)⟩
    obtain rfl := some.inj (ha.symm.trans hfg)
    exact ⟨rfl, .inl hadd⟩

/-- The shell adds a task. -/
theorem Watched.add {a : Nat} {rest : List Op} (htodo : σ.todo = .add a :: rest)
    {s : System} (hblock : s.block = update σ.block a .queued) (hfg : s.foreground = σ.foreground) :
    Watched ⟨s, rest⟩ (w.after σ .next ⟨s, rest⟩) := by
  have hcalls := h.calls
  rw [htodo] at hcalls
  refine h.move (by simp [Shell.chooses, htodo]) hfg hcalls.2 (by simp [htodo]) (fun b hb => ?_)
    (fun b hb => ?_) fun b hb => ?_
  · have hne : b ≠ a := fun heq => hcalls.1 (heq ▸ hb)
    rw [hblock, update_of_ne hne]
    exact h.new b (htodo ▸ mem_cons_of_mem _ hb)
  · rw [htodo] at hb
    rcases mem_cons.mp hb with heq | hb
    · obtain rfl := Op.add.inj heq
      exact .inr (by rw [hblock, update_self])
    · exact .inl hb
  · rw [hblock, update_apply]
    split <;> simp [hb]

/-- An iteration of `sched_wait`, after which the shell goes on or not. -/
theorem Watched.wait {rest todo : List Op} (htodo : σ.todo = .wait :: rest)
    (htodo' : todo = .wait :: rest ∨ todo = rest) {s : System} (hfg : s.foreground = σ.foreground)
    (hstays : ∀ a, (σ.block a = .created → s.block a = .created) ∧
      (σ.block a = .queued → s.block a ≠ .created)) :
    Watched ⟨s, todo⟩ (w.after σ .next ⟨s, todo⟩) := by
  have hcalls := h.calls
  rw [htodo] at hcalls
  have hmem : ∀ o, o ≠ .wait → (o ∈ todo ↔ o ∈ σ.todo) := by
    intro o ho
    rcases htodo' with rfl | rfl <;> simp [htodo, ho]
  refine h.move (by simp [Shell.chooses, htodo]) hfg ?_ (hmem _ (by simp)).mpr
    (fun b hb => (hstays b).1 (h.new b ((hmem _ (by simp)).mp hb)))
    (fun b hb => .inl ((hmem _ (by simp)).mpr hb)) fun b => (hstays b).2
  rcases htodo' with rfl | rfl
  · exact hcalls
  · exact hcalls

/-- The shell makes the next call of its command. -/
theorem Watched.next (hl : Linked σ.toSched l) {op : Op} {rest : List Op} {s : System}
    (htodo : σ.todo = op :: rest) (hcur : σ.current = bootTask) (hop : op.allowed σ.toSched)
    (hs : σ.toSystem.step e (.sched op) = some s) :
    Watched ⟨s, if (s.tasks bootTask).resume = .inWait then op :: rest else rest⟩
      (w.after σ .next ⟨s, if (s.tasks bootTask).resume = .inWait then op :: rest else rest⟩) := by
  have hcalls := h.calls
  rw [htodo] at hcalls
  have hresume : σ.cur.resume = (σ.tasks bootTask).resume := by rw [Sched.cur, hcur]
  cases op with
  | setForeground t =>
    obtain rfl : { σ.toSystem with toSched := { σ.toSched with foreground := t } } = s :=
      some.inj hs
    have hout : ¬(σ.tasks bootTask).resume = .inWait := by
      simp_all [Op.allowed]
    rw [if_neg hout]
    exact h.setForeground htodo rfl rfl
  | add a =>
    obtain rfl : { σ.toSystem with toSched := σ.schedAdd a } = s := some.inj hs
    simp only [Op.allowed, Bool.and_eq_true, beq_iff_eq] at hop
    have hne : bootTask ≠ a := by
      rintro rfl
      have hq := hl.cur_queued
      simp [hcur, hop.2] at hq
    obtain ⟨n, hn⟩ := σ.schedAdd_other hne
    have hout : ¬((σ.schedAdd a).tasks bootTask).resume = .inWait := by
      rw [hn]
      simp [← hresume, hop.1]
    rw [if_neg hout]
    exact h.add htodo rfl rfl
  | wait =>
    have hallowed : SysOp.allowed σ.toSystem (.sched .wait) := hop
    obtain ⟨hfg, hstays⟩ := System.step_stays hl hallowed (by simp) hs
    exact h.wait htodo (by split <;> simp) hfg fun a => by simpa using hstays a
  | _ => exact absurd hcalls id

theorem Watched.step (hl : Linked σ.toSched l) {op : ShellOp} (hs : ShellTo σ e op σ') :
    Watched σ' (w.after σ op σ') := by
  have hprompt : σ.atPrompt = true → σ.foreground = none := by
    intro hat
    by_contra hsome
    have hmem := h.cleared hsome
    simp [Shell.todo_eq_nil hat] at hmem
  cases hs with
  | gaveUp hat hm => exact .of_none trivial (by simp) (hm.foreground.trans (hprompt hat))
  | @run _ _ _ ut _ hat hm =>
    refine .of_none (by simp [Calls, runCalls]) (fun a ha => ?_) (hm.foreground.trans (hprompt hat))
    have ha' : a ∈ [ut] := by simpa [runCalls] using ha
    exact (hm.block a).trans (if_pos ha')
  | @pipe _ _ _ _ _ lt rt _ hat hm hne =>
    refine .of_none (by simp [Calls, pipeCalls, hne.symm]) (fun a ha => ?_)
      (hm.foreground.trans (hprompt hat))
    have ha' : a ∈ [rt, lt] := by simpa [pipeCalls] using ha
    exact (hm.block a).trans (if_pos ha')
  | next htodo hcur hop hs => exact h.next hl htodo hcur hop hs
  | sys hop hwho hs => exact h.sys hl hop hwho hs

end

theorem WatchRun.watched {σ₀ : Shell} (hboot : Booted σ₀.toSched) (htodo : σ₀.todo = [])
    (hrun : WatchRun σ₀ σ w) : Watched σ w ∧ ∃ l, Linked σ.toSched l := by
  induction hrun with
  | nil => exact ⟨.of_none (htodo ▸ trivial) (by simp [htodo]) hboot.foreground, [], hboot.linked⟩
  | step e op _ hop hstep ih =>
    obtain ⟨h, l, hl⟩ := ih
    have hto := Shell.step_to hop hstep
    exact ⟨h.step hl hto, hto.linked hl⟩

/-- Ctrl-C writes to the foreground task only. -/
theorem ForegroundLive.ctrlc (h : ForegroundLive σ w) {a : Nat}
    (ha : σ.schedCtrlc.tasks a ≠ σ.tasks a) :
    σ.block a = .queued := by
  unfold Sched.schedCtrlc at ha
  split at ha
  · exact absurd rfl ha
  · rename_i t ht
    split at ha
    · by_cases heq : a = t
      · rw [heq]
        exact (h t ht).1
      · exact absurd (update_of_ne heq _ _) ha
    · exact absurd rfl ha

end

/-- **The foreground task**, in every run: it is a task of the queue, and the one the shell
has chosen, exactly if it has been added and not been released.  Then Ctrl-C writes
to a task of the queue. -/
theorem foreground_live_iff {σ₀ σ : Shell} {w : Watch} (hboot : Booted σ₀.toSched)
    (htodo : σ₀.todo = []) (hrun : WatchRun σ₀ σ w) :
    (ForegroundLive σ w ∧ ∀ a, σ.schedCtrlc.tasks a ≠ σ.tasks a → σ.block a = .queued) ↔
      ∀ t, σ.foreground = some t → Op.add t ∉ σ.todo ∧ w.released = false := by
  rw [← (hrun.watched hboot htodo).1.live_iff]
  exact ⟨And.left, fun h => ⟨h, fun a => h.ctrlc⟩⟩

/-! ## runs of given steps -/

/-- A run of given steps. -/
def Shell.exec (e : Surroundings) (σ : Shell) (w : Watch) : List ShellOp → Option (Shell × Watch)
  | [] => some (σ, w)
  | op :: ops =>
    if op.allowed σ then (σ.step e op).bind fun σ' => σ'.exec e (w.after σ op σ') ops else none

theorem WatchRun.exec {σ₀ σ σ' : Shell} {w w' : Watch} {e : Surroundings} {ops : List ShellOp}
    (hrun : WatchRun σ₀ σ w) (h : σ.exec e w ops = some (σ', w')) : WatchRun σ₀ σ' w' := by
  induction ops generalizing σ w with
  | nil =>
    obtain ⟨rfl, rfl⟩ := Prod.mk.inj (some.inj h)
    exact hrun
  | cons op ops ih =>
    rw [Shell.exec] at h
    split at h
    · rename_i hop
      obtain ⟨σ1, hstep, hrest⟩ := bind_eq_some_iff.mp h
      exact ih (.step e op hrun hop hstep) hrest
    · simp at h

/-- A test on the state that `exec` gives. -/
theorem Shell.exists_exec {σ₀ : Shell} {e : Surroundings} {ops : List ShellOp}
    {p : Shell × Watch → Bool}
    (h : (σ₀.exec e ⟨fun _ => 0, 0, false⟩ ops).any p) : ∃ σ w, WatchRun σ₀ σ w ∧ p (σ, w) := by
  obtain ⟨r, hexec, hr⟩ := (Option.any_eq_true _ _).mp h
  exact ⟨r.1, r.2, WatchRun.nil.exec hexec, hr⟩

/-- "run seq", while the shell waits. -/
theorem foreground_live_seq : ∃ σ w, WatchRun (bootShell dirBin) σ w ∧ σ.foreground = some 2 ∧
    σ.block 2 = .queued ∧ w.births 2 = w.chosen := by
  have hany : ((bootShell dirBin).exec ⟨3, onesMachine, []⟩ ⟨fun _ => 0, 0, false⟩
      [.run rootPath (CStr.ofBytes seqName) (some 2), .next, .next, .next]).any (fun r =>
        r.1.foreground == some 2 && !r.2.released && r.1.todo.all fun
          | .add _ => false
          | _ => true) = true := by decide +kernel
  obtain ⟨σ, w, hrun, htest⟩ := Shell.exists_exec hany
  simp only [Bool.and_eq_true, beq_iff_eq, Bool.not_eq_true', List.all_eq_true] at htest
  obtain ⟨⟨hfg, hkept⟩, htodo⟩ := htest
  have hboot : Booted (bootShell dirBin).toSched := booted_bootSched
  have hlive := (foreground_live_iff hboot rfl hrun).mpr fun t _ =>
    ⟨fun hadd => by simpa using htodo _ hadd, hkept⟩
  exact ⟨σ, w, hrun, hfg, hlive.1 2 hfg⟩

/-- "seq|wc" and Ctrl-C, which kills "wc": the shell waits for "seq", and the foreground
task has been released. -/
theorem foreground_dangles : ∃ σ w, WatchRun (bootShell dirBin) σ w ∧ σ.foreground = some 3 ∧
    σ.block 3 = .free ∧ σ.block 2 = .queued ∧ ¬ForegroundLive σ w := by
  have hany : ((bootShell dirBin).exec ⟨3, onesMachine, []⟩ ⟨fun _ => 0, 0, false⟩
      [.pipe rootPath (CStr.ofBytes seqName) (CStr.ofBytes wcName) (some 2) (some 3),
        .next, .next, .next, .next, .sys (.sched .ctrlc), .sys (.sched .tick), .next, .next]).any
          (fun r =>
        r.1.foreground == some 3 && r.1.block 3 == .free && r.1.block 2 == .queued) =
          true := by decide +kernel
  obtain ⟨σ, w, hrun, htest⟩ := Shell.exists_exec hany
  simp only [Bool.and_eq_true, beq_iff_eq] at htest
  obtain ⟨⟨hfg, hfree⟩, hleft⟩ := htest
  exact ⟨σ, w, hrun, hfg, hfree, hleft, fun hlive => by simp [(hlive 3 hfg).1] at hfree⟩

end AliOS
