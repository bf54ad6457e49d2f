import AliOS.Process.Fork
import AliOS.Syscall.Pointers
import AliOS.Uvm.Teardown

/-!
# AliOS.Process.Exec

`sys_exec` (`kernel/syscall.c`).  The call tears the address space of its caller down before
it knows whether the new program can be loaded, and so it cannot fail in an orderly way: where
a step fails, it ends the task.

The teardown has a second effect.  `uvm_free` frees all frames of the identity map, the
frame 0 among them, and the next `pmm_alloc` hands that one out, as the address 0, which
stands for a lack of memory.  So in a task that has run so far, `sys_exec` always fails.
-/

namespace AliOS

open Lib Function Option

/-! ## sys_exec -/

/-- The state in which `current_task` works on its descriptors. -/
def Processes.kernel (p : Processes) : Kernel where
  machine := p.machine
  fs := p.fs
  pipes := p.pipes
  current := p.cur.toTask
  queue := []

/-- The descriptors and pipes after that. -/
def Processes.put (p : Processes) (k : Kernel) : Processes :=
  { p with
    toSched := { p.modify p.current fun t => { t with toTask := k.current } with
      pipes := k.pipes } }

/-- Stores into the user side of `current_task`. -/
def Processes.modifyUser (p : Processes) (f : UserSide → UserSide) : Processes :=
  { p with user := update p.user p.current (f p.curUser) }

/-- How `sys_exec` ends: with a return value and the registers for the way back to ring 3, or
in `sched_exit`, which does not return. -/
inductive ExecResult where
  | returned (v : Int) (r : Regs)
  | exited

/-- `sched_exit(); return -1;` -/
def Processes.execFails (fuel : Nat) (p : Processes) : Option (ExecResult × Processes) :=
  (p.toSched.schedExit fuel none).map fun s => (.exited, p.switched s)

/-- The end of `sys_exec`: the new program has its stack page. -/
def Processes.execStarts (p : Processes) (r : Regs) (entry : Nat) : ExecResult × Processes :=
  let p := p.modifyUser fun u => { u with userBrk := 0x10000000 }
  (.returned 0 { r with eip := .ofNat entry, userEsp := 0xBFFFFFFC }, p.put p.kernel.execClose)

/-- `sys_exec` with the new page directory `newPd`. -/
def Processes.execLoad (fuel : Nat) (p : Processes) (r : Regs) (kname : CStr) (newPd : Nat) :
    Option (ExecResult × Processes) :=
  let p := p.modifyUser fun u => { u with pageDir := newPd }
  (elfLoad { p.toLoader with machine := { p.machine with cr3 := newPd } } newPd kname).bind
    fun res =>
    let p := { p with toLoader := res.2 }
    match res.1.entry with
    | none => p.execFails fuel
    | some entry =>
      (mapStack p.machine newPd).bind fun res =>
        let p := { p with machine := res.2 }
        if res.1 = 0 then p.execFails fuel else some (p.execStarts r entry)

/-- `sys_exec` for the name `uname`, called with the registers `r`. -/
def Processes.sysExec (fuel : Nat) (p : Processes) (r : Regs) (uname : CStr) :
    Option (ExecResult × Processes) :=
  let kname := pathResolve p.cur.cwd (uname.take knameMax)
  (uvmFree p.machine p.curUser.pageDir).bind fun m =>
    (uvmCreate m).bind fun res =>
      let p := { p with machine := res.2 }
      if res.1 = 0 then p.execFails fuel else p.execLoad fuel r kname res.1

/-! ## the end of the task -/

section

variable {s s' : Sched} {a : Nat}

/-- The task at `a` has called `sched_exit`. -/
def Sched.Ended (s : Sched) (a : Nat) : Prop :=
  (s.tasks a).state = .zombie ∧ (s.tasks a).resume = .exited

theorem Sched.Ended.modify (h : s.Ended a) {b : Nat} (hb : b ≠ a) (f : Pcb → Pcb) :
    (s.modify b f).Ended a := by
  unfold Sched.Ended
  rw [Sched.modify_tasks, if_neg (Ne.symm hb)]
  exact h

theorem Sched.Ended.schedule (h : s.Ended s.current) {fuel : Nat} (hs : s.schedule fuel = some s') :
    s'.Ended s.current := by
  obtain ⟨found, hfound, rfl⟩ := map_eq_some_iff.mp hs
  cases found with
  | none => exact h
  | some q =>
    obtain ⟨prev, nxt⟩ := q
    have hne : nxt ≠ s.current := ringFind_ne_stop hfound
    -- a zombie is not made ready again
    have hself : (s.modify s.current fun t => if t.state = .running then { t with state := .ready }
      else t).Ended
        s.current := by
      unfold Sched.Ended
      rw [Sched.modify_tasks, if_pos rfl, if_neg (by rw [h.1]; decide)]
      exact h
    have hswitched := hself.modify hne fun t => { t with state := .running }
    exact ⟨hswitched.1, hswitched.2⟩

theorem Sched.ended_becomeZombie (s : Sched) (code : Option Int) :
    (s.becomeZombie code).Ended s.current := by
  unfold Sched.Ended
  rw [(s.stores_becomeZombie code).self]
  exact ⟨rfl, rfl⟩

/-- `sched_exit` leaves a zombie that never goes on. -/
theorem Sched.ended_schedExit {fuel : Nat} {code : Option Int}
    (h : s.schedExit fuel code = some s') :
    s'.Ended s.current := by
  have hz := s.ended_becomeZombie code
  unfold Sched.schedExit at h
  dsimp only at h
  split at h
  · obtain ⟨found, hfound, h⟩ := bind_eq_some_iff.mp h
    cases found with
    | none => exact hz.schedule h
    | some q =>
      obtain ⟨prev, parent⟩ := q
      have hne : parent ≠ (s.becomeZombie code).current := ringFind_ne_stop hfound
      exact (hz.modify hne _).schedule h
  · exact hz.schedule h

end

/-! ## what a failure leaves -/

section

variable {p p' : Processes} {r : Regs} {uname : CStr} {fuel : Nat} {res : ExecResult}

/-- What a call that fails in an orderly way leaves: -1 for its caller, which goes on with the
registers, the memory, the break and the descriptors it had. -/
structure ExecRefused (p : Processes) (r : Regs) (res : ExecResult) (p' : Processes) : Prop where
  result : res = .returned (-1) r
  pageDir : (p'.user p.current).pageDir = p.curUser.pageDir
  memory : ∀ v, UserPage (v / 4096) →
    userRead p'.machine.mem p.curUser.pageDir v = userRead p.machine.mem p.curUser.pageDir v
  userBrk : (p'.user p.current).userBrk = p.curUser.userBrk
  fdTable : ∀ i < taskFdMax, (p'.tasks p.current).fdTable i = p.cur.fdTable i

theorem Processes.execFails_eq {q : Processes} (h : q.execFails fuel = some (res, p'))
    (hq : q.current = p.current) : res = .exited ∧ p'.Ended p.current := by
  obtain ⟨s, hs, heq⟩ := map_eq_some_iff.mp h
  cases heq
  rw [← hq]
  exact ⟨rfl, Sched.ended_schedExit hs⟩

/-- `sys_exec` starts the program, or the task has ended. -/
theorem Processes.sysExec_cases (h : p.sysExec fuel r uname = some (res, p')) :
    (∃ r', res = .returned 0 r') ∨ res = .exited ∧ p'.Ended p.current := by
  obtain ⟨m, -, h⟩ := bind_eq_some_iff.mp h
  obtain ⟨⟨newPd, m₁⟩, -, h⟩ := bind_eq_some_iff.mp h
  split at h
  · exact .inr (Processes.execFails_eq h rfl)
  · obtain ⟨⟨er, l⟩, -, h⟩ := bind_eq_some_iff.mp h
    split at h
    · exact .inr (Processes.execFails_eq h rfl)
    · obtain ⟨⟨sp, m₂⟩, -, h⟩ := bind_eq_some_iff.mp h
      split at h
      · exact .inr (Processes.execFails_eq h rfl)
      · cases h
        exact .inl ⟨_, rfl⟩

/-- **A failed `sys_exec` never returns**: a call that does not start the program has ended
its task, whatever the reason, and no caller sees -1 and the memory it had. -/
theorem sysExec_never_refused (h : p.sysExec fuel r uname = some (res, p'))
    (hfail : ¬∃ r', res = .returned 0 r') : p'.Ended p.current ∧ ¬ExecRefused p r res p' := by
  obtain hstarts | ⟨rfl, hended⟩ := Processes.sysExec_cases h
  · exact absurd hstarts hfail
  · exact ⟨hended, fun hrefused => nomatch hrefused.result⟩

end

/-! ## the frame 0 -/

/-- After `uvm_free` has freed the frame 0 there seems to be no memory. -/
theorem uvmCreate_of_freed {m : Machine} (h : pageIsFree m.pmm 0) :
    uvmCreate m = some (0, m.alloc.2) := by
  have hfirst : firstFree m.pmm = some 0 :=
    firstFree_eq_some.mpr ⟨by decide, h, fun q hq => absurd hq (by omega)⟩
  have halloc : m.alloc.1 = 0 := by
    show (pmmAlloc m.pmm).1 = 0
    rw [pmmAlloc, hfirst]
    exact Nat.zero_mul _
  unfold uvmCreate
  rw [if_pos halloc]

/-- In a task whose directory starts with the identity tables `sys_exec` fails for every
program, while the frame 0 is in use as `pmm_init` has left it. -/
theorem Processes.sysExec_ends {p : Processes} {kt : Nat → Nat} {d : Nat} {l : List Nat}
    (hid : IdMapped p.machine kt d) (hpd : p.curUser.pageDir = d * 4096) (hlow : Low d)
    (htab : ∀ i < 768, hasFlag (word p.machine.mem d i) pagePresent →
      Low (word p.machine.mem d i / 4096))
    (hrefs : p.machine.pmm.pageRefs 0 ≤ 1) (hl : Linked p.toSched l) (hboot : p.current ≠ bootTask)
    (r : Regs) (uname : CStr) {fuel : Nat} (hfuel : l.length ≤ fuel) :
    ∃ p', p.sysExec fuel r uname = some (.exited, p') := by
  obtain ⟨m, hfree, -⟩ := uvmFree_released hid hlow htab
  have hzero := uvmFree_lowers hid hlow htab hid.dir hfree (show Low 0 by unfold Low; omega)
  have hfree0 : pageIsFree m.pmm 0 := by
    unfold Lowered pageWeight at hzero
    by_contra hused
    rw [if_neg hused] at hzero
    split at hzero <;> omega
  obtain ⟨v, hsettles, -⟩ := hl.schedExit none hboot
  unfold Processes.sysExec
  rw [hpd, hfree, bind_some, uvmCreate_of_freed hfree0, bind_some]
  rw [if_pos rfl]
  unfold Processes.execFails
  rw [show _ = some v from hsettles.total hfuel]
  exact ⟨_, rfl⟩

/-! ## a program that is not there -/

/-- The name of no file. -/
def missingName : CStr := ⟨[0x78], by simp⟩

theorem linked_pairProcesses : Linked pairProcesses.toSched [bootTask] := by
  refine ⟨⟨⟨rfl, rfl⟩, by decide⟩, fun a => ?_⟩
  show a ∈ [2, bootTask] ↔ update (update bootSched.block 2 .created) 2 .queued a = .queued
  rw [update_idem, List.mem_pair, update_apply]
  by_cases h2 : a = 2
  · simp [h2]
  · rw [if_neg h2]
    show _ ↔ (if a = bootTask then Block.queued else .free) = .queued
    simp [h2]

/-- The process with two pages calls `sys_exec` for a name that does not exist. -/
theorem sysExec_pairProcesses (r : Regs) :
    ∃ p', pairProcesses.sysExec 1 r missingName = some (.exited, p') := by
  have hid : IdMapped (pairMachine 402) (256 + ·) 320 :=
    ⟨rfl, idDir_pairMachine (.inr rfl), idTables_pairMachine⟩
  have htab : ∀ i < 768, hasFlag (word (pairMachine 402).mem 320 i) pagePresent = true →
      Low (word (pairMachine 402).mem 320 i / 4096) := fun i hi hp => by
    by_cases hlo : i < 32
    · rw [(idDir_pairMachine (.inr rfl) i hlo).frame]
      show 256 + i < 32768
      omega
    · have hword : word (pairMachine 402).mem 320 i = _ := word_pairMachine_dir (by omega) hi
      rw [hword] at hp ⊢
      by_cases h32 : i = 32
      · subst h32
        show (321 * 4096 ||| 7) / 4096 < 32768
        decide
      · rw [if_neg h32] at hp
        exact absurd hp (by decide)
  have hpd : pairProcesses.curUser.pageDir = 320 * 4096 := rfl
  have hrefs : (pairMachine 402).pmm.pageRefs 0 ≤ 1 := by decide
  exact Processes.sysExec_ends (p := pairProcesses) hid hpd (by unfold Low; omega)
    htab hrefs linked_pairProcesses
    (by decide) r missingName (Nat.le_refl 1)

theorem sysExec_never_refused_missing :
    ∃ p', pairProcesses.sysExec 1 luckyRegs missingName = some (.exited, p') ∧
    p'.Ended pairProcesses.current ∧ ¬ExecRefused pairProcesses luckyRegs .exited p' := by
  obtain ⟨p', h⟩ := sysExec_pairProcesses luckyRegs
  exact ⟨p', h, sysExec_never_refused h fun ⟨r', hr⟩ => nomatch hr⟩

/-- The caller is not told that the file is missing: it is a zombie. -/
theorem sysExec_kills_caller :
    ∃ p', pairProcesses.sysExec 1 luckyRegs missingName = some (.exited, p') ∧
    alfsFind pairProcesses.fs (some (pathResolve pairProcesses.cur.cwd missingName)) = -1 ∧
    p'.Ended pairProcesses.current ∧ ¬ExecRefused pairProcesses luckyRegs .exited p' := by
  obtain ⟨p', h⟩ := sysExec_pairProcesses luckyRegs
  obtain ⟨r', hr⟩ | ⟨-, hended⟩ := Processes.sysExec_cases h
  · cases hr
  · exact ⟨p', h, by decide +kernel, hended, fun hrefused => nomatch hrefused.result⟩

end AliOS
