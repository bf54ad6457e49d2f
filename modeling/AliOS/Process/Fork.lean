import AliOS.Cow
import AliOS.Process
import AliOS.Sched.Cycle

/-!
# AliOS.Process.Fork

What `sys_fork` hands down.  The child's descriptors, its break and its memory are those of
the parent, and it starts with EAX = 0 behind the system call, on the same stack.  But the
register frame of the parent is not copied: the other registers are what `task_create_user`
has put on the new kernel stack and what `user_enter_eax` uses on its way, and the working
directory is `/`.
-/

namespace AliOS

open Lib Function

/-- The registers with which a copy of the caller would go on. -/
def Regs.forked (r : Regs) : UserRegs where
  eax := 0
  ebx := r.ebx
  ecx := r.ecx
  edx := r.edx
  esi := r.esi
  edi := r.edi
  ebp := r.ebp
  eip := r.eip
  esp := r.userEsp

/-- The task at `a` in `p'` is a copy of `current_task` in `p`, whose register frame is `r`. -/
structure Duplicated (prologue : CalleeSaved → CalleeSaved) (p : Processes) (r : Regs)
    (p' : Processes) (a : Nat) : Prop where
  regs : (p'.user a).userTaskTrampoline prologue = r.forked
  brk : (p'.user a).userBrk = p.curUser.userBrk
  fds : ∀ i < taskFdMax, (p'.tasks a).fdTable i = p.cur.fdTable i
  cwd : (p'.tasks a).cwd = p.cur.cwd
  view : ∀ v, UserAddr v →
    userRead p'.machine.mem (p'.user a).pageDir v = userRead p.machine.mem p.curUser.pageDir v

/-- The registers that every child gets happen to be those of the parent, and its working
directory is `/`. -/
structure StartsAlike (prologue : CalleeSaved → CalleeSaved) (p : Processes) (r : Regs) : Prop where
  ebx : r.ebx = (prologue ⟨0, 0, 0, 0⟩).ebx &&& 0xFFFF0000 ||| userDs
  ecx : r.ecx = r.userEsp
  edx : r.edx = r.eip
  esi : r.esi = (prologue ⟨0, 0, 0, 0⟩).esi
  edi : r.edi = (prologue ⟨0, 0, 0, 0⟩).edi
  ebp : r.ebp = (prologue ⟨0, 0, 0, 0⟩).ebp
  cwd : p.cur.cwd = rootPath

/-- The address space `d` can be cloned below 128 MB, as in a run of copy-on-write. -/
def Clonable (m : Machine) (d : Nat) : Prop :=
  ∃ ds V kt k, Refines m ds V kt k ∧ d ∈ ds ∧ LowFrames m ds (.clone d)

/-- The first registers of a child, whatever its page directory and its break. -/
theorem forked_eq_iff (prologue : CalleeSaved → CalleeSaved) (r : Regs) (pd : Nat) (brk : UInt32) :
    { UserSide.create r.eip r.userEsp pd with userEax := 0, userBrk := brk }.userTaskTrampoline
      prologue = r.forked ↔
      r.ebx = (prologue ⟨0, 0, 0, 0⟩).ebx &&& 0xFFFF0000 ||| userDs ∧ r.ecx = r.userEsp ∧
        r.edx = r.eip ∧
        r.esi = (prologue ⟨0, 0, 0, 0⟩).esi ∧ r.edi = (prologue ⟨0, 0, 0, 0⟩).edi ∧
        r.ebp = (prologue ⟨0, 0, 0, 0⟩).ebp := by
  simp only [UserSide.userTaskTrampoline, userEnterEax, UserSide.create, Regs.forked,
    UserRegs.mk.injEq, true_and, and_true]
  simp only [eq_comm]

section

variable {p p' : Processes} {r : Regs} {a : Nat} {pid : Int}

/-- A fork that has put its child into the run queue. -/
theorem Processes.sysFork_queued (hfree : p.block a = .free)
    (h : p.sysFork r (some a) = some (pid, p')) (hq : p'.block a = .queued) :
    ∃ pd, uvmClone p.machine p.curUser.pageDir = some (pd, p'.machine) ∧ pd ≠ 0 ∧
      p'.toSched = (p.toSched.sysFork (some a)).2 ∧ p'.user = update p.user a
        { UserSide.create r.eip r.userEsp pd with userEax := 0, userBrk := p.curUser.userBrk } := by
  obtain ⟨⟨pd, m⟩, hclone, h⟩ := Option.bind_eq_some_iff.mp h
  split_ifs at h with hpd
  · obtain ⟨-, rfl⟩ := Prod.mk.inj (Option.some.inj h)
    exact absurd (hfree.symm.trans hq) (by decide)
  · obtain ⟨-, rfl⟩ := Prod.mk.inj (Option.some.inj h)
    exact ⟨pd, hclone, hpd, rfl, rfl⟩

/-- The clone shows the same memory. -/
theorem Clonable.userRead {m m' : Machine} {d pd : Nat} (h : Clonable m d)
    (hclone : uvmClone m (d * 4096) = some (pd, m')) {v : Nat} (hv : UserAddr v) :
    userRead m'.mem pd v = userRead m.mem (d * 4096) v := by
  obtain ⟨ds, V, kt, k, href, hd, hlow⟩ := h
  obtain ⟨t, m'', hrun, -, href'⟩ := href.clone hd hlow
  rw [hclone] at hrun
  cases hrun
  obtain ⟨owner, hlay⟩ := href.layout
  obtain ⟨owner', hlay'⟩ := href'.layout
  have hpage : UserPage (v / 4096) := by
    unfold UserAddr at hv
    unfold UserPage
    omega
  have ht : t ∈ insert t ds := Finset.mem_insert_self t ds
  rw [hlay'.userRead ht hpage, hlay.userRead hd hpage]
  unfold Views.read
  rw [href'.view t ht, href.view d hd]
  unfold eagerClone
  rw [if_pos rfl]

/-- **What a child of `sys_fork` starts with.**  It is a copy of its parent only if the parent
happens to have the registers and the working directory that every child gets; and then
it is one, if the frames for the clone are found below 128 MB. -/
theorem sysFork_duplicates_iff (prologue : CalleeSaved → CalleeSaved) (hfree : p.block a = .free)
    (hcur : p.block p.current = .queued) (h : p.sysFork r (some a) = some (pid, p'))
    (hq : p'.block a = .queued) :
    (Duplicated prologue p r p' a → StartsAlike prologue p r) ∧
      ((∃ d, p.curUser.pageDir = d * 4096 ∧ Clonable p.machine d) →
        (Duplicated prologue p r p' a ↔ StartsAlike prologue p r)) := by
  obtain ⟨pd, hclone, -, hsched, huser⟩ := Processes.sysFork_queued hfree h hq
  have hne : a ≠ p.current := fun heq => by
    rw [← heq, hfree] at hcur
    cases hcur
  -- the child's side of the scheduler and its user side
  have htask := p.toSched.sysFork_self hne
  rw [← hsched] at htask
  have hside := congrFun huser a
  rw [update_self] at hside
  have hregs := forked_eq_iff prologue r pd p.curUser.userBrk
  rw [← hside] at hregs
  have hto : Duplicated prologue p r p' a → StartsAlike prologue p r := fun hd => by
    obtain ⟨hebx, hecx, hedx, hesi, hedi, hebp⟩ := hregs.mp hd.regs
    have hcwd := hd.cwd
    rw [htask] at hcwd
    exact ⟨hebx, hecx, hedx, hesi, hedi, hebp, hcwd.symm⟩
  refine ⟨hto, fun ⟨d, hpd, hmem⟩ =>
    ⟨hto, fun hs => ⟨hregs.mpr ?_, ?_, fun i hi => ?_, ?_, fun v hv => ?_⟩⟩⟩
  · exact ⟨hs.ebx, hs.ecx, hs.edx, hs.esi, hs.edi, hs.ebp⟩
  · rw [hside]
  · rw [htask]
    exact if_pos hi
  · rw [htask, hs.cwd]
  · rw [hside]
    rw [hpd] at hclone ⊢
    exact hmem.userRead hclone hv

end

/-! ## a parent with two pages -/

/-- The process with two pages is the running task, the first one the shell has started. -/
def pairProcesses : Processes where
  toSched := ((bootSched.taskCreateUser 2).schedAdd 2).switchTo 2
  machine := pairMachine 402
  fs := ⟨true, fun _ => 0, fun _ => 0, ⟨fun _ => 0, []⟩⟩
  bufs := ⟨fun _ => 0, fun _ => 0⟩
  user := fun _ => .create 0x08000000 0xBFFFFF00 (320 * 4096)

/-- It forks with the next free block of memory. -/
theorem sysFork_pairProcesses (r : Regs) :
    ∃ pid p', pairProcesses.sysFork r (some 3) = some (pid, p') ∧
    p'.block 3 = .queued := by
  obtain ⟨t, m, -, hclone, ht, -⟩ := uvmClone_pairMachine (show 401 < 402 by decide)
  have hclone' : uvmClone pairProcesses.machine pairProcesses.curUser.pageDir =
      some (t * 4096, m) := hclone
  unfold Processes.sysFork
  rw [hclone', Option.bind_some]
  rw [if_neg (by omega)]
  refine ⟨_, _, rfl, ?_⟩
  rw [Sched.sysFork_block, update_self]

theorem clonable_pairMachine : Clonable (pairMachine 402) 320 := by
  have hpriv := privateSpace_pairMachine (show 401 < 402 by decide)
  have hthree := three_le_freeBelow_pairMachine
  refine ⟨_, _, _, _, hpriv.refines, Finset.mem_singleton_self 320, shareable_pairMachine, ?_⟩
  show tablesUsed (pairMachine 402).mem 320 32 736 + 1 ≤ freeBelow 32768 (pairMachine 402).pmm
  rw [tablesUsed_pairMachine]
  omega

/-- The registers of a child that is a copy, if the trampoline keeps the callee-saved ones. -/
def luckyRegs : Regs where
  edi := 0
  esi := 0
  ebp := 0
  ebx := 0x23
  edx := 0x08000010
  ecx := 0xBFFFFF00
  eip := 0x08000010
  userEsp := 0xBFFFFF00

theorem sysFork_duplicates_lucky :
    ∃ pid p', pairProcesses.sysFork luckyRegs (some 3) = some (pid, p') ∧
    Duplicated id pairProcesses luckyRegs p' 3 := by
  obtain ⟨pid, p', h, hq⟩ := sysFork_pairProcesses luckyRegs
  exact ⟨pid, p', h,
    ((sysFork_duplicates_iff id rfl rfl h hq).2 ⟨320, rfl, clonable_pairMachine⟩).mpr
    ⟨by decide, rfl, rfl, rfl, rfl, rfl, rfl⟩⟩

/-- A parent with 1 in ECX: whatever the compiler makes of the trampoline, its child has the
stack pointer there. -/
theorem sysFork_loses_ecx :
    ∃ pid p', pairProcesses.sysFork { luckyRegs with ecx := 1 } (some 3) = some (pid, p') ∧
    p'.block 3 = .queued ∧ ∀ prologue, ((p'.user 3).userTaskTrampoline prologue).ecx = 0xBFFFFF00 ∧
      ¬Duplicated prologue pairProcesses { luckyRegs with ecx := 1 } p' 3 := by
  obtain ⟨pid, p', h, hq⟩ := sysFork_pairProcesses { luckyRegs with ecx := 1 }
  obtain ⟨pd, -, -, -, huser⟩ := Processes.sysFork_queued rfl h hq
  have hecx : ∀ prologue, ((p'.user 3).userTaskTrampoline prologue).ecx = 0xBFFFFF00 :=
    fun prologue => by
    rw [huser, update_self]
    rfl
  refine ⟨pid, p', h, hq, fun prologue => ⟨hecx prologue, fun hd => ?_⟩⟩
  have hregs := hecx prologue
  rw [hd.regs] at hregs
  exact absurd hregs (by decide)

end AliOS
