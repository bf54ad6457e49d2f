import AliOS.Elf.History
import AliOS.Process
import AliOS.Sched.Cycle

/-!
# AliOS.Process.Leak

What reaping a task gives back: nothing.  `sched_exit` and `sched_wait` release the pipe ends,
the stack and the `task_t` of a task; its page directory, the tables and the pages stay
allocated.  The first half says which steps keep a frame that has been handed out
(`Held`): all but `uvm_free`, which only `sys_exec` and failed creations call.  So in every
run without these the directory of a task is still in use after `sched_wait` has
returned its pid.
-/

namespace AliOS

open Lib Function Option

variable {m : Machine} {addr a phys pd fuel : Nat} {p p' p₀ : Processes}

/-! ## frames that stay handed out -/

/-- What has been handed out stays so. -/
def KeepsHeld (m m' : Machine) : Prop := ∀ addr, Held m.pmm addr → Held m'.pmm addr

theorem KeepsHeld.of_pmm_eq {m' : Machine} (h : m'.pmm = m.pmm) : KeepsHeld m m' := fun a ha => by
  rw [h]
  exact ha

theorem KeepsHeld.refl (m : Machine) : KeepsHeld m m := fun _ ha => ha

theorem KeepsHeld.trans {m₁ m₂ m3 : Machine} (h : KeepsHeld m₁ m₂) (h' : KeepsHeld m₂ m3) :
    KeepsHeld m₁ m3 :=
  fun a ha => h' a (h a ha)

theorem held_setRefs {s : Pmm} {p n : Nat} (h : Held s addr) (hn : 1 ≤ n) :
    Held (s.setRefs p n) addr := by
  unfold Held at h ⊢
  rw [pageIsFree_setRefs, pageRefs_setRefs]
  exact ⟨h.1, by split <;> omega⟩

theorem keepsHeld_alloc (m : Machine) : KeepsHeld m m.alloc.2 := fun a ha => by
  unfold Machine.alloc
  obtain ⟨g, -, -, -, heq⟩ | ⟨-, heq⟩ := pmmAlloc_cases m.pmm
  · rw [heq]
    unfold Held at ha ⊢
    rw [pageIsFree_grant, pageRefs_grant, ha.1]
    exact ⟨rfl, by split <;> omega⟩
  · rw [heq]
    exact ha

/-- The frame `pmm_alloc` returns. -/
theorem held_alloc (h : m.alloc.1 ≠ 0) : Held m.alloc.2.pmm m.alloc.1 := by
  obtain ⟨f, -, -, -, heq⟩ := Machine.alloc_spec h
  rw [heq]
  have hf : f * 4096 / pageSize = f := mul_pageSize_div f
  simp [Held, hf]

theorem keepsHeld_addref (m : Machine) (addr : Nat) :
    KeepsHeld m { m with pmm := pmmAddref m.pmm addr } :=
  fun a ha => by
    obtain ⟨-, -, heq⟩ | ⟨-, heq⟩ := pmmAddref_cases m.pmm addr
    · rw [heq]
      exact held_setRefs ha (by omega)
    · rw [heq]
      exact ha

/-- `pmm_free` takes back at most the frame it is called for. -/
theorem held_free {s : Pmm} (h : Held s a)
    (hne : addr / pageSize < pagesMax → a / pageSize = addr / pageSize →
      s.pageRefs (addr / pageSize) ≠ 1) :
    Held (pmmFree s addr) a := by
  obtain ⟨-, heq⟩ | ⟨hlt, -, ⟨hmany, heq⟩ | ⟨hfew, heq⟩⟩ := pmmFree_cases s addr
  · rw [heq]
    exact h
  · rw [heq]
    exact held_setRefs h (by omega)
  · unfold Held at h ⊢
    have hpage : a / pageSize ≠ addr / pageSize := fun hpage => by
      rw [hpage] at h
      omega
    rw [heq, pageIsFree_release, pageRefs_release, if_neg hpage, h.1]
    exact ⟨by simpa using hpage, h.2⟩

/-- Copying a page: the old frame is given up for a new one. -/
theorem keepsHeld_replace (h : pmmGetref m.pmm addr ≠ 1) :
    KeepsHeld m (m.alloc.2.free addr) := fun a ha => by
  refine held_free (keepsHeld_alloc m a ha) fun hlt hpage => ?_
  unfold pmmGetref at h
  rw [if_pos hlt] at h
  unfold Machine.alloc
  obtain ⟨g, -, hfree, -, heq⟩ | ⟨-, heq⟩ := pmmAlloc_cases m.pmm
  · -- the new frame was free, the old one was not
    have hg : addr / pageSize ≠ g := fun hg => by
      rw [← hg, ← hpage, ha.1] at hfree
      cases hfree
    rw [heq]
    rwa [pageRefs_grant, if_neg hg]
  · rw [heq]
    exact h

section

variable {m m' : Machine}

/-! ## stores -/

theorem kstore8_pmm {v : Nat} {b : UInt8} (h : kstore8 m v b = some m') : m'.pmm = m.pmm := by
  obtain ⟨a, -, rfl⟩ := map_eq_some_iff.mp h
  rfl

theorem zeroPage_pmm (h : zeroPage m phys = some m') : m'.pmm = m.pmm :=
  forRangeM_pmm (fun _ _ _ => kstore8_pmm) h

theorem storeBytes_pmm {p : Nat} {bs : List UInt8} (h : storeBytes m p bs = some m') :
    m'.pmm = m.pmm := by
  induction bs generalizing m p with
  | nil =>
    cases h
    rfl
  | cons b bs ih =>
    obtain ⟨m₁, h1, h2⟩ := bind_eq_some_iff.mp h
    exact (ih h2).trans (kstore8_pmm h1)

theorem storeAt_pmm {page : Nat} {stores : List (Int × UInt8)}
    (h : storeAt m page stores = some m') :
    m'.pmm = m.pmm := by
  induction stores generalizing m with
  | nil =>
    cases h
    rfl
  | cons s stores ih =>
    obtain ⟨m₁, h1, h2⟩ := bind_eq_some_iff.mp h
    exact (ih h2).trans (kstore8_pmm h1)

theorem copyPage_pmm {dst src : Nat} (h : copyPage m dst src = some m') : m'.pmm = m.pmm :=
  forRangeM_pmm (fun i t t' ht => by
    obtain ⟨b, -, hb⟩ := bind_eq_some_iff.mp ht
    exact kstore8_pmm hb) h

/-! ## address spaces -/

/-- The directory `uvm_create` returns has been handed out. -/
theorem uvmCreate_held (h : uvmCreate m = some (pd, m')) :
    KeepsHeld m m' ∧ (pd ≠ 0 → Held m'.pmm pd) := by
  unfold uvmCreate at h
  dsimp only at h
  split_ifs at h with h0
  · obtain ⟨rfl, rfl⟩ := Prod.mk.inj (some.inj h)
    exact ⟨keepsHeld_alloc m, fun hno => absurd rfl hno⟩
  · obtain ⟨m₁, h1, h⟩ := bind_eq_some_iff.mp h
    obtain ⟨m₂, h2, heq⟩ := map_eq_some_iff.mp h
    obtain ⟨rfl, rfl⟩ := Prod.mk.inj heq
    have hpmm := (pagingCopyKernelMappings_pmm h2).trans (clearTable_pmm h1)
    refine ⟨(keepsHeld_alloc m).trans (.of_pmm_eq hpmm), fun _ => ?_⟩
    rw [hpmm]
    exact held_alloc h0

theorem uvmMap_held {virt flags : Nat} {r : Int} (h : uvmMap m pd virt phys flags = some (r, m')) :
    KeepsHeld m m' := by
  obtain hpmm | hpmm := uvmMap_pmm h
  · exact .of_pmm_eq hpmm
  · exact (keepsHeld_alloc m).trans (.of_pmm_eq hpmm)

theorem uvmCloneEntry_held {dst i srcPt j : Nat} {st st' : Bool × Machine}
    (h : uvmCloneEntry dst i srcPt j st = some st') : KeepsHeld st.2 st'.2 := by
  unfold uvmCloneEntry at h
  split_ifs at h with hstop
  · cases h
    exact .refl _
  obtain ⟨pte, -, h⟩ := bind_eq_some_iff.mp h
  by_cases hp : hasFlag pte pagePresent = true
  · rw [if_pos hp] at h
    obtain ⟨⟨flags, m₁⟩, h1, h⟩ := bind_eq_some_iff.mp h
    obtain ⟨⟨r, m₂⟩, h2, rfl⟩ := map_eq_some_iff.mp h
    have hdown : m₁.pmm = st.2.pmm := by
      split at h1
      · obtain ⟨m₀, h0, heq⟩ := map_eq_some_iff.mp h1
        obtain ⟨-, rfl⟩ := Prod.mk.inj heq
        exact kstore32_pmm h0
      · obtain ⟨-, rfl⟩ := Prod.mk.inj (some.inj h1)
        rfl
    exact ((KeepsHeld.of_pmm_eq hdown).trans (keepsHeld_addref m₁ _)).trans (uvmMap_held h2)
  · rw [if_neg hp] at h
    cases h
    exact .refl _

/-- A clone that succeeds. -/
theorem uvmClone_held {src : Nat} (h : uvmClone m src = some (pd, m')) (hpd : pd ≠ 0) :
    KeepsHeld m m' ∧ Held m'.pmm pd := by
  obtain ⟨⟨dst, m₁⟩, hcreate, h⟩ := bind_eq_some_iff.mp h
  obtain ⟨hkeep, hdir⟩ := uvmCreate_held hcreate
  dsimp only at h
  split_ifs at h with h0
  · exact absurd (Prod.mk.inj (some.inj h)).1.symm hpd
  · obtain ⟨⟨stop, m₂⟩, hloop, h⟩ := bind_eq_some_iff.mp h
    have hkeep2 : KeepsHeld m₁ m₂ :=
      forRangeM_induct (fun _ st => KeepsHeld m₁ st.2) hloop (.refl m₁) fun i st st' _ _
        hst hstep => by
        refine hst.trans ?_
        unfold uvmCloneTable at hstep
        split_ifs at hstep
        · cases hstep
          exact .refl _
        obtain ⟨pde, -, hstep⟩ := bind_eq_some_iff.mp hstep
        split_ifs at hstep
        · exact forRangeM_induct (fun _ st₁ => KeepsHeld st.2 st₁.2) hstep (.refl _)
            fun j t t' _ _ ht ht' => ht.trans (uvmCloneEntry_held ht')
        · cases hstep
          exact .refl _
    split_ifs at h
    · obtain ⟨m3, -, heq⟩ := map_eq_some_iff.mp h
      exact absurd (Prod.mk.inj heq).1.symm hpd
    · obtain ⟨rfl, rfl⟩ := Prod.mk.inj (some.inj h)
      exact ⟨hkeep.trans hkeep2, hkeep2 _ (hdir hpd)⟩

/-! ## programs -/

theorem elfPage_held {va : Nat} {idx : Int} {ph : Phdr} {st st' : Image}
    (h : elfPage pd idx ph va st = some st') :
    KeepsHeld st.machine st'.machine := by
  cases hf : st.failed with
  | true =>
    unfold elfPage at h
    rw [if_pos hf] at h
    cases h
    exact .refl _
  | false =>
    obtain ⟨-, rfl⟩ | ⟨-, m₁, m₂, h1, h2, h⟩ := elfPage_cases h hf
    · exact keepsHeld_alloc _
    have hkeep : KeepsHeld st.machine m₂ :=
      (keepsHeld_alloc _).trans (.of_pmm_eq ((storeBytes_pmm h2).trans (zeroPage_pmm h1)))
    obtain rfl | ⟨-, ret, m3, h3, ⟨-, rfl⟩ | ⟨-, rfl⟩⟩ := h
    · exact hkeep
    · exact hkeep.trans (uvmMap_held h3)
    · exact hkeep.trans (uvmMap_held h3)

theorem elfSegment_held {i : Nat} {idx : Int} {phBuf : Bytes} {st st' : Image}
    (h : elfSegment pd idx phBuf i st = some st') : KeepsHeld st.machine st'.machine := by
  unfold elfSegment at h
  dsimp only at h
  split_ifs at h
  · cases h
    exact .refl _
  · cases h
    exact .refl _
  · cases h
    exact .refl _
  · exact forRangeM_induct (fun _ t => KeepsHeld st.machine t.machine) h (.refl _)
      fun n t t' _ _ ht ht' => ht.trans (elfPage_held ht')
  · cases h
    exact .refl _

theorem elfLoad_held {s s' : Loader} {filename : CStr} {r : ElfResult}
    (h : elfLoad s pd filename = some (r, s')) : KeepsHeld s.machine s'.machine := by
  obtain ⟨-, -, heq⟩ | ⟨idx, fs, b, st, -, hrun, -, rfl⟩ := elfLoad_cases h
  · rw [heq]
    exact .refl _
  · exact forRangeM_induct (fun _ (t : Image) => KeepsHeld s.machine t.machine) hrun (.refl _)
      fun n t t' _ _ ht ht' => ht.trans (elfSegment_held ht')

theorem mapStack_held {sp : Nat} (h : mapStack m pd = some (sp, m')) : KeepsHeld m m' := by
  unfold mapStack at h
  dsimp only at h
  split_ifs at h
  · obtain ⟨-, rfl⟩ := Prod.mk.inj (some.inj h)
    exact keepsHeld_alloc m
  · obtain ⟨m₁, h1, h⟩ := bind_eq_some_iff.mp h
    obtain ⟨⟨r, m₂⟩, h2, heq⟩ := map_eq_some_iff.mp h
    obtain ⟨-, rfl⟩ := Prod.mk.inj heq
    exact ((keepsHeld_alloc m).trans (.of_pmm_eq (zeroPage_pmm h1))).trans (uvmMap_held h2)

theorem brkPage_held {va : Nat} {st st' : Bool × Machine} (h : brkPage pd va st = some st') :
    KeepsHeld st.2 st'.2 := by
  unfold brkPage at h
  dsimp only at h
  split_ifs at h
  · cases h
    exact .refl _
  · cases h
    exact keepsHeld_alloc _
  · obtain ⟨m₁, h1, h⟩ := bind_eq_some_iff.mp h
    obtain ⟨⟨r, m₂⟩, h2, rfl⟩ := map_eq_some_iff.mp h
    exact ((keepsHeld_alloc _).trans (.of_pmm_eq (zeroPage_pmm h1))).trans (uvmMap_held h2)

/-! ## page faults -/

theorem pagingMap_held {virt flags : Nat} (h : pagingMap m virt phys flags = some m') :
    KeepsHeld m m' := by
  unfold pagingMap at h
  dsimp only at h
  split_ifs at h
  · exact .of_pmm_eq (kstore32_pmm h)
  · cases h
    exact keepsHeld_alloc m
  · obtain ⟨m₁, h1, h2⟩ := bind_eq_some_iff.mp h
    have hpmm := kstore32_pmm h2
    have hset : ∀ i w, (m₁.setPageDirEntry i w).pmm = m₁.pmm := fun _ _ => rfl
    rw [hset, clearTable_pmm h1] at hpmm
    exact (keepsHeld_alloc m).trans (.of_pmm_eq hpmm)

theorem resolveCow_held {ptAddr pte : Nat} (h : resolveCow m ptAddr pte = some m') :
    KeepsHeld m m' := by
  unfold resolveCow at h
  dsimp only at h
  split_ifs at h with href h0
  · exact .of_pmm_eq (kstore32_pmm h)
  · obtain ⟨m₁, h1, h2⟩ := bind_eq_some_iff.mp h
    have hpmm1 : m₁.pmm = m.alloc.2.pmm := copyPage_pmm h1
    have hpmm2 : m'.pmm = (m.alloc.2.free (frameAddr pte)).pmm := by
      rw [kstore32_pmm h2]
      unfold Machine.free
      rw [hpmm1]
    exact (keepsHeld_replace href).trans (.of_pmm_eq hpmm2)

theorem pageFault_held {task : Option Nat} {err cr2 : Nat}
    (h : pageFault m task err cr2 = some m') :
    KeepsHeld m m' := by
  unfold pageFault at h
  dsimp only at h
  split at h
  · exact (keepsHeld_alloc m).trans (pagingMap_held h)
  have hcow : ∀ {t t' : Machine} {pd : Nat}, cowFault t pd cr2 = some t' → KeepsHeld t t' :=
    fun hc => by
    obtain ⟨pde, -, hc⟩ := bind_eq_some_iff.mp hc
    split_ifs at hc
    obtain ⟨pte, -, hc⟩ := bind_eq_some_iff.mp hc
    split_ifs at hc
    exact resolveCow_held hc
  have hstart : ∀ c : Bool, KeepsHeld m (if c then m.alloc.2 else m) := fun c => by
    cases c with
    | true => exact keepsHeld_alloc m
    | false => exact .refl m
  split at h
  · cases h
  · split at h
    · exact (hstart _).trans (hcow h)
    · cases h

theorem userWrite_held {v : Nat} {b : UInt8} (h : userWrite m v b = some m') : KeepsHeld m m' := by
  have hstore : ∀ {m m' : Machine}, userStore m v b = some m' → KeepsHeld m m' := fun hs => by
    obtain ⟨e, -, hs⟩ := bind_eq_some_iff.mp hs
    split_ifs at hs
    cases hs
    exact .refl _
  unfold userWrite at h
  split at h
  · next m₁ h1 =>
    cases h
    exact hstore h1
  · obtain ⟨m₁, h1, h2⟩ := bind_eq_some_iff.mp h
    exact (pageFault_held h1).trans (hstore h2)

end

/-! ## runs -/

/-- The step does not call `uvm_free`: tasks are made successfully. -/
def NoTeardown (p : Processes) : ProcOp → Prop
  | .fork _ child => child ≠ none ∧ ∃ pd m, uvmClone p.machine p.curUser.pageDir = some (pd, m) ∧
      pd ≠ 0
  | .run argc argv junk mem => ∃ a p', p.loadProgram argc argv junk mem = some (some a, p')
  | _ => True

/-- The page directories of the tasks have been handed out. -/
def TasksHeld (p : Processes) : Prop :=
  ∀ a, a ≠ bootTask → p.block a ≠ .free → Held p.machine.pmm (p.user a).pageDir

/-- A step that makes no task. -/
theorem TasksHeld.keeps (h : TasksHeld p) (hkeep : KeepsHeld p.machine p'.machine)
    (hblock : ∀ a, p'.block a ≠ .free → p.block a ≠ .free)
    (hdir : ∀ a, (p'.user a).pageDir = (p.user a).pageDir) : TasksHeld p' := fun a ha hb => by
  rw [hdir]
  exact hkeep _ (h a ha (hblock a hb))

/-- A step that makes one. -/
theorem TasksHeld.make (h : TasksHeld p) (hkeep : KeepsHeld p.machine p'.machine)
    (hblock : ∀ b, b ≠ a → p'.block b = p.block b) (hdir : ∀ b, b ≠ a → p'.user b = p.user b)
    (hnew : Held p'.machine.pmm (p'.user a).pageDir) : TasksHeld p' := fun b hb hfree => by
  by_cases hba : b = a
  · rw [hba]
    exact hnew
  · rw [hblock b hba] at hfree
    rw [hdir b hba]
    exact hkeep _ (h b hb hfree)

/-- What a program that has been loaded adds. -/
theorem loadProgram_held {argc : Nat} {argv : Nat → CStr} {junk : Nat → Nat} {mem : Option Nat}
    (h : p.loadProgram argc argv junk mem = some (some a, p')) :
    KeepsHeld p.machine p'.machine ∧ Held p'.machine.pmm (p'.user a).pageDir ∧ mem = some a ∧
      p'.toSched = p.toSched.taskCreateUser a ∧ ∀ b, b ≠ a → p'.user b = p.user b := by
  have hdiscard : ∀ {q : Processes} {upd : Nat}, q.discard upd ≠ some (some a, p') := fun hd => by
    obtain ⟨m, -, heq⟩ := map_eq_some_iff.mp hd
    cases (Prod.mk.inj heq).1
  obtain ⟨⟨upd, m₁⟩, h1, h⟩ := bind_eq_some_iff.mp h
  obtain ⟨hkeep1, hdir⟩ := uvmCreate_held h1
  dsimp only at h
  split_ifs at h with h0
  · cases (Prod.mk.inj (some.inj h)).1
  obtain ⟨⟨r, l⟩, h2, h⟩ := bind_eq_some_iff.mp h
  have hkeep2 := elfLoad_held h2
  cases hentry : r.entry with
  | none =>
    rw [hentry] at h
    exact absurd h hdiscard
  | some entry =>
    rw [hentry] at h
    obtain ⟨⟨sp, m3⟩, h3, h⟩ := bind_eq_some_iff.mp h
    have hkeep3 := mapStack_held h3
    split_ifs at h with hsp
    · exact absurd h hdiscard
    obtain ⟨m4, h4, h⟩ := bind_eq_some_iff.mp h
    have hkeep4 : KeepsHeld m₁ m4 := (hkeep2.trans hkeep3).trans (.of_pmm_eq (storeAt_pmm h4))
    cases mem with
    | none => exact absurd h hdiscard
    | some b =>
      obtain ⟨hab, rfl⟩ := Prod.mk.inj (some.inj h)
      cases hab
      refine ⟨hkeep1.trans hkeep4, ?_, rfl, rfl, fun c hc => update_of_ne hc _ _⟩
      simp only [Processes.taskCreateUser, update_self]
      exact hkeep4 _ (hdir h0)

/-- The ring of the run queue. -/
def QueueLinked (p : Processes) : Prop := ∃ l, Linked p.toSched l

section

variable {p p' : Processes} {l : List Nat}

/-- A step of the scheduler uses no memory that was free before. -/
theorem TasksHeld.sched {s : Sched} {o : Op} (h : TasksHeld p) (hl : Linked p.toSched l)
    (ho : o.allowed p.toSched) (hcreate : ∀ a, o ≠ .create a) (hfork : ∀ c, o ≠ .fork c)
    (hs : p.toSched.step fuel o = some s) :
    TasksHeld { p with toSched := s } ∧ QueueLinked { p with toSched := s } := by
  have hto := hl.step_some ho hs
  refine ⟨h.keeps (.of_pmm_eq rfl) (fun a ha => ?_) fun _ => rfl, hto.linked hl⟩
  have hfree : s.block a ≠ .free := ha
  obtain ⟨heq, -⟩ | ⟨b, rfl, -⟩ | ⟨b, rfl | rfl, -, heq⟩ | ⟨t, -, -, -, heq⟩ := hto.memory
  · rwa [← heq]
  · exact absurd rfl (hcreate b)
  · have hcreated : p.block b = .created := by
      simp only [Op.allowed, Bool.and_eq_true, beq_iff_eq] at ho
      exact ho.2
    rw [heq, update_apply] at hfree
    by_cases hab : a = b
    · simp [hab, hcreated]
    · rwa [if_neg hab] at hfree
  · exact absurd rfl (hfork _)
  · rw [heq, update_apply] at hfree
    by_cases hat : a = t
    · exact absurd (if_pos hat) hfree
    · rwa [if_neg hat] at hfree

/-- `sys_fork` with memory for the child, whose address space could be made. -/
theorem TasksHeld.fork {r : Regs} {res : Int × Processes} (h : TasksHeld p)
    (hl : Linked p.toSched l)
    (hfree : p.block a = .free) (hclone : uvmClone p.machine p.curUser.pageDir = some (pd, m))
    (hpd : pd ≠ 0) (hfork : p.sysFork r (some a) = some res) :
    TasksHeld res.2 ∧ QueueLinked res.2 := by
  obtain ⟨hkeep, hheld⟩ := uvmClone_held hclone hpd
  unfold Processes.sysFork at hfork
  rw [hclone, bind_some] at hfork
  rw [if_neg hpd] at hfork
  cases hfork
  refine ⟨h.make hkeep (fun b hb => ?_) (fun b hb => update_of_ne hb _ _) ?_, _,
    hl.sysFork (by simp [hfree])⟩
  · rw [Sched.sysFork_block, update_of_ne hb]
  · dsimp only
    rw [update_self]
    exact hheld

/-- `sys_brk` changes no task but the running one, and not its directory. -/
theorem TasksHeld.brk {newBrk : UInt32} {res : Int × Processes} (h : TasksHeld p)
    (hl : Linked p.toSched l)
    (hbrk : p.sysBrk newBrk = some res) : TasksHeld res.2 ∧ QueueLinked res.2 := by
  unfold Processes.sysBrk at hbrk
  dsimp only at hbrk
  split_ifs at hbrk
  · cases hbrk
    exact ⟨h, l, hl⟩
  · cases hbrk
    exact ⟨h, l, hl⟩
  · cases hbrk
    exact ⟨h, l, hl⟩
  obtain ⟨st, hloop, hbrk⟩ := map_eq_some_iff.mp hbrk
  have hkeep : KeepsHeld p.machine st.2 :=
    forRangeM_induct (fun _ t => KeepsHeld p.machine t.2) hloop (.refl _)
      fun n t t' _ _ ht ht' => ht.trans (brkPage_held ht')
  split at hbrk
  · obtain rfl := hbrk
    exact ⟨h.keeps hkeep (fun _ ha => ha) fun _ => rfl, l, hl⟩
  · obtain rfl := hbrk
    refine ⟨h.keeps hkeep (fun _ ha => ha) fun a => ?_, l, hl⟩
    dsimp only
    rw [update_apply]
    split
    · next ha =>
      rw [ha]
      rfl
    · rfl

/-- Every step keeps the directories. -/
theorem TasksHeld.step {op : ProcOp} (h : TasksHeld p) (hl : QueueLinked p) (hop : op.allowed p)
    (hok : NoTeardown p op) (hstep : p.step fuel op = some p') :
    TasksHeld p' ∧ QueueLinked p' := by
  obtain ⟨l, hl⟩ := hl
  cases op with
  | sched o =>
    have ho : o.allowed p.toSched = true ∧ (∀ a, o ≠ .create a) ∧ ∀ c, o ≠ .fork c := by
      cases o <;> simp_all [ProcOp.allowed]
    obtain ⟨s, hs, rfl⟩ := map_eq_some_iff.mp hstep
    exact h.sched hl ho.1 ho.2.1 ho.2.2 hs
  | fork r child =>
    obtain ⟨hchild, pd, m, hclone, hpd⟩ := hok
    obtain ⟨a, rfl⟩ := ne_none_iff_exists'.mp hchild
    obtain ⟨res, hfork, rfl⟩ := map_eq_some_iff.mp hstep
    simp only [ProcOp.allowed, Op.allowed, Bool.and_eq_true, all_some, beq_iff_eq] at hop
    exact h.fork hl hop.1.2 hclone hpd hfork
  | run argc argv junk mem =>
    obtain ⟨a, q, hload⟩ := hok
    obtain ⟨r, hr, rfl⟩ := map_eq_some_iff.mp hstep
    obtain rfl := some.inj (hload.symm.trans hr)
    obtain ⟨hkeep, hheld, rfl, hsched, hdir⟩ := loadProgram_held hload
    simp only [ProcOp.allowed, Bool.and_eq_true, all_some, beq_iff_eq] at hop
    refine ⟨h.make hkeep (fun b hb => ?_) hdir hheld, l, ?_⟩
    · rw [hsched]
      exact update_of_ne hb _ _
    · rw [hsched]
      exact hl.taskCreateUser (by simp [hop.2])
  | brk newBrk =>
    obtain ⟨res, hbrk, rfl⟩ := map_eq_some_iff.mp hstep
    exact h.brk hl hbrk
  | write v b =>
    obtain ⟨m, hwrite, rfl⟩ := map_eq_some_iff.mp hstep
    exact ⟨h.keeps (userWrite_held hwrite) (fun _ ha => ha) fun _ => rfl, l, hl⟩
  | store mem =>
    cases hstep
    exact ⟨h.keeps (.of_pmm_eq rfl) (fun _ ha => ha) fun _ => rfl, l, hl⟩

end

theorem ProcRun.tasksHeld (hboot : Booted p₀.toSched) (hrun : ProcRun NoTeardown p₀ p) :
    TasksHeld p ∧ QueueLinked p := by
  induction hrun with
  | nil =>
    refine ⟨fun a ha hb => ?_, [], hboot.linked⟩
    rw [hboot.block, if_neg ha] at hb
    exact absurd rfl hb
  | step fuel op _ hop hok hstep ih => exact ih.1.step ih.2 hop hok hstep

/-! ## reaping -/

/-- `sched_wait` of `current_task` returns the pid of the zombie at `t`. -/
def Reaps (p : Processes) (fuel t : Nat) (p' : Processes) : Prop :=
  (∃ prev, p.search fuel (fun c => p.cur.zombieOf c.toTask) = some (some (prev, t))) ∧
    p.step fuel (.sched .wait) = some p'

/-- The frame of the page directory of a task. -/
def Processes.dirFrame (p : Processes) (t : Nat) : Nat := (p.user t).pageDir / 4096

/-- The user pages at which the directory `d` maps the frame `f`. -/
def mappings (mem : Bytes) (d f : Nat) : List Nat :=
  (List.range' 32768 (786432 - 32768)).filter fun v =>
    hasFlag (pteAt mem d v) pagePresent && pteAt mem d v / 4096 == f

/-- Another task than the one at `t` maps the frame. -/
def Processes.othersMap (p : Processes) (t f : Nat) : Prop :=
  ∃ b, b ≠ t ∧ p.block b ≠ .free ∧ mappings p.machine.mem (p.dirFrame b) f ≠ []

/-- The frames that only the task at `t` can reach: its directory, the tables behind it, and
pages that no other task maps. -/
def Processes.ownFrame (p : Processes) (t f : Nat) : Prop :=
  f = p.dirFrame t ∨
  (∃ i, 32 ≤ i ∧ i < 768 ∧ hasFlag (word p.machine.mem (p.dirFrame t) i) pagePresent = true ∧
    f = word p.machine.mem (p.dirFrame t) i / 4096) ∨
  mappings p.machine.mem (p.dirFrame t) f ≠ [] ∧ ¬p.othersMap t f

/-- A page that the task at `t` shares with another one. -/
def Processes.sharedFrame (p : Processes) (t f : Nat) : Prop :=
  mappings p.machine.mem (p.dirFrame t) f ≠ [] ∧ p.othersMap t f

/-- The memory of the task at `t` in `p` has been given back in `p'`. -/
structure MemoryReturned (p : Processes) (t : Nat) (p' : Processes) : Prop where
  own : ∀ f, p.ownFrame t f → pageIsFree p'.machine.pmm f = true
  shared : ∀ f, p.sharedFrame t f →
    p'.machine.pmm.pageRefs f + (mappings p.machine.mem (p.dirFrame t) f).length =
      p.machine.pmm.pageRefs f

/-- The machine is not in the reach of `sched_wait`. -/
theorem Reaps.machine {t : Nat} (h : Reaps p fuel t p') : p'.machine = p.machine := by
  obtain ⟨⟨prev, hfind⟩, hstep⟩ := h
  obtain ⟨s, hs, rfl⟩ := map_eq_some_iff.mp hstep
  obtain ⟨r, hr, rfl⟩ := map_eq_some_iff.mp hs
  unfold Sched.schedWait at hr
  rw [hfind, bind_some] at hr
  cases hr
  unfold Processes.switched
  dsimp only
  rw [if_pos (.inl rfl)]

/-- The directory of a task that has been reaped. -/
theorem Reaps.dirFrame_used {t : Nat} (h : Reaps p fuel t p') (hboot : Booted p₀.toSched)
    (hrun : ProcRun NoTeardown p₀ p) (ht : t ≠ bootTask) :
    pageIsFree p'.machine.pmm (p.dirFrame t) = false := by
  obtain ⟨hheld, l, hl⟩ := hrun.tasksHeld hboot
  have hqueued : p.block t = .queued := by
    obtain ⟨⟨prev, hfind⟩, -⟩ := h
    have hprev := (hl.search fun c => p.cur.zombieOf c.toTask).eq_of_some hfind
    obtain ⟨l₁, l₂, rfl, -⟩ := findPrev_eq_some hprev.symm
    exact (hl.queued t).mp (by simp)
  rw [h.machine]
  exact (hheld t ht (by simp [hqueued])).1

/-- **Reaping gives no memory back.**  After `sched_wait` the frames of the task are free only
if they were free before, and no count of a shared frame is lowered.  In a run in which
nothing has called `uvm_free` the directory is in use. -/
theorem reaps_memoryReturned_iff {p p' : Processes} {fuel t : Nat} (h : Reaps p fuel t p') :
    (MemoryReturned p t p' ↔
      (∀ f, p.ownFrame t f → pageIsFree p.machine.pmm f = true) ∧ ∀ f, ¬p.sharedFrame t f) ∧
    ∀ p₀, Booted p₀.toSched → ProcRun NoTeardown p₀ p → t ≠ bootTask → ¬MemoryReturned p t p' := by
  have hmachine := h.machine
  constructor
  · constructor
    · intro hret
      refine ⟨fun f hf => hmachine ▸ hret.own f hf, fun f hf => ?_⟩
      have hcount := hret.shared f hf
      rw [hmachine] at hcount
      exact hf.1 (List.length_eq_zero_iff.mp (by omega))
    · rintro ⟨hown, hshared⟩
      exact ⟨fun f hf => hmachine.symm ▸ hown f hf, fun f hf => absurd hf (hshared f)⟩
  · intro p₀ hboot hrun ht hret
    have hfree := hret.own _ (.inl rfl)
    rw [h.dirFrame_used hboot hrun ht] at hfree
    cases hfree

/-! ## a program that exits -/

/-- Steps of the scheduler that make no task. -/
theorem ProcRun.exec {ok : Processes → ProcOp → Prop} {ops : List Op} {s : Sched}
    (hrun : ProcRun ok p₀ p)
    (hok : ∀ op ∈ ops, ∀ q : Processes, ok q (.sched op) ∧
      ProcOp.allowed q (.sched op) = op.allowed q.toSched)
    (h : p.toSched.exec fuel ops = some s) :
    ∃ p', ProcRun ok p₀ p' ∧ p'.toSched = s := by
  induction ops generalizing p with
  | nil => exact ⟨p, hrun, some.inj h⟩
  | cons op ops ih =>
    obtain ⟨hop, hops⟩ := List.forall_mem_cons.mp hok
    rw [Sched.exec] at h
    split at h
    · next hallowed =>
      obtain ⟨s₁, hstep, hrest⟩ := bind_eq_some_iff.mp h
      have hproc : p.step fuel (.sched op) = some (p.switched s₁) := by
        show (p.toSched.step fuel op).map p.switched = _
        rw [hstep, map_some]
      exact ih (.step fuel (.sched op) hrun ((hop p).2.trans hallowed) (hop p).1 hproc) hops hrest
    · cases h

theorem IdMapped.storeAt {kt : Nat → Nat} {c f : Nat} (h : IdMapped m kt c) (hlow : Low f)
    (hout : Outside kt c f) {stores : List (Int × UInt8)}
    (hin : ∀ s ∈ stores, 0 ≤ s.1 ∧ s.1 < 4096) :
    ∃ mem', AliOS.storeAt m (f * 4096) stores = some { m with mem := mem' } := by
  induction stores generalizing m with
  | nil => exact ⟨m.mem, rfl⟩
  | cons s stores ih =>
    obtain ⟨i, b⟩ := s
    obtain ⟨⟨hi0, hi⟩, hin⟩ := List.forall_mem_cons.mp hin
    have haddr : (((f * 4096 : Nat) + i) % 2 ^ 32).toNat = f * 4096 + i.toNat := by
      unfold Low at hlow
      omega
    have hk : i.toNat < 4096 := by
      omega
    obtain ⟨mem', hrest⟩ := ih (h.onlyFrame hout (onlyFrame_update m.mem f hk b)) hin
    refine ⟨mem', ?_⟩
    unfold AliOS.storeAt
    rw [haddr, h.kstore8 hlow hk, bind_some, hrest]

/-- The stack of a new program, with its arguments. -/
theorem NewSpace.mapStack {m₀ : Machine} {kt : Nat → Nat} {c k d : Nat} (hk : KernelMaps m₀ kt c k)
    (h : NewSpace m₀ m kt d) (h0 : pageIsFree m.pmm 0 = false) (hroom : 2 ≤ freeBelow 32768 m.pmm)
    (hlast : word m.mem d 767 = 0) :
    ∃ f m', AliOS.mapStack m (d * 4096) = some (f * 4096, m') ∧ f ≠ 0 ∧ Low f ∧
      Outside kt c f ∧ IdMapped m' kt c := by
  obtain ⟨f, hlow, hf0, hfree, halloc⟩ :=
    Machine.alloc_below (by decide) h0 (show 0 < freeBelow 32768 m.pmm by omega)
  have hfree0 := h.untouched.free hfree
  obtain ⟨hfd, hnew⟩ := h.grant hfree
  have hcount := freeBelow_grant hlow hfree
  obtain ⟨mem', hzero, honly, -⟩ := (hk.idMapped hnew.untouched).zeroPage hlow (hk.outside hfree0)
  have hnew' := hnew.fill hfree0 hfd honly
  obtain ⟨m', hmap, -, -⟩ :=
    hnew'.uvmMap_absent hk userStackVbase (by decide) (by decide) (by simp [h0])
    (by dsimp only; omega) ((word_congr (by decide) (honly d (Ne.symm hfd))).trans hlast) (f * 4096)
    (pageWrite ||| pageUser)
  refine ⟨f, m', ?_, hf0, hlow, hk.outside hfree0,
    hk.idMapped (hnew'.uvmMap hk (by decide) (by decide) hmap).1.untouched⟩
  unfold AliOS.mapStack
  rw [halloc]
  rw [if_neg (by omega), hzero, bind_some, hmap]
  rfl

/-- A program that is loaded. -/
theorem Processes.loadProgram_of (p : Processes) {argc upd entry sp : Nat} {argv : Nat → CStr}
    {junk : Nat → Nat} {m₁ m3 m4 : Machine} {l : Loader} {mapped : List Nat}
    (hcreate : uvmCreate p.machine = some (upd, m₁)) (hupd : upd ≠ 0)
    (hload : elfLoad ⟨m₁, p.fs, p.bufs⟩ upd (argv 0) = some (⟨some entry, mapped⟩, l))
    (hstack : AliOS.mapStack l.machine upd = some (sp, m3)) (hsp : sp ≠ 0)
    (hargs : AliOS.storeAt m3 sp (elfPushArgs argc argv junk).2 = some m4) :
    p.loadProgram argc argv junk (some a) = some (some a,
      { p with toLoader := { l with machine := m4 } }.taskCreateUser a (.ofNat entry)
        (.ofNat (elfPushArgs argc argv junk).1) upd) := by
  unfold Processes.loadProgram
  rw [hcreate, bind_some]
  rw [if_neg hupd, hload, bind_some]
  dsimp only
  rw [hstack, bind_some]
  rw [if_neg hsp, hargs, bind_some]

/-- The shell with one program on the disk. -/
def stubProcesses : Processes where
  toSched := bootSched
  machine := loaderMachine
  fs := elfFs stubFile 46
  bufs := .bss
  user := fun _ => .create 0 0 (16 * 4096)

theorem loadProgram_stubProcesses :
    ∃ p', stubProcesses.loadProgram 1 (fun _ => elfName) (fun _ => 0) (some 2) =
    some (some 2, p') := by
  have hk := kernelMaps_loaderMachine
  obtain ⟨d, mem1, hlow, hd0, hfree, hcreate⟩ := loaderMachine_creates
  obtain ⟨d', hdd, hnew, hwords⟩ := newSpace_uvmCreate hk (by omega) hcreate
  obtain rfl : d' = d := by omega
  obtain ⟨hidx, -, -, hnum, htype⟩ := stubBufs_spec
  have hhdr : elfHeaders (elfFs stubFile 46) .bss elfName = (some 0, _, stubBufs) :=
    Prod.ext hidx rfl
  have hload := @elfLoad_skip (d' * 4096)
    { loaderMachine with mem := mem1, pmm := loaderMachine.pmm.grant d' }
    _ _ _ _ _ _ hhdr fun i hi => by
      obtain rfl : i = 0 := by omega
      rw [htype]
      decide
  have hroom : 2 ≤ freeBelow 32768 (loaderMachine.pmm.grant d') := by
    have hfour := four_le_freeBelow_loaderMachine
    have hcount := freeBelow_grant hlow hfree
    omega
  have h0 : pageIsFree (loaderMachine.pmm.grant d') 0 = false := by simp [pageIsFree_loaderMachine]
  obtain ⟨f, m₂, hstack, hf0, hlowf, hout, hid⟩ :=
    hnew.mapStack hk h0 hroom (hwords 767 (by decide))
  obtain ⟨mem3, hargs⟩ := hid.storeAt hlowf hout
    (show ∀ s ∈ (elfPushArgs 1 (fun _ => elfName) fun _ => 0).2, 0 ≤ s.1 ∧
      s.1 < 4096 by decide +kernel)
  exact ⟨_, stubProcesses.loadProgram_of hcreate (by omega) hload hstack (by omega) hargs⟩

/-- The shell starts a program, which exits, and reaps it. -/
theorem stubProcesses_reaps : ∃ p p', ProcRun NoTeardown stubProcesses p ∧ Reaps p 2 2 p' := by
  obtain ⟨p1, hload⟩ := loadProgram_stubProcesses
  obtain ⟨-, -, -, hsched, -⟩ := loadProgram_held hload
  have hsched : p1.toSched = bootSched.taskCreateUser 2 := hsched
  have hstep : stubProcesses.step 0 (.run 1 (fun _ => elfName) (fun _ => 0) (some 2)) =
      some p1 := by
    show (stubProcesses.loadProgram 1 (fun _ => elfName) (fun _ => 0) (some 2)).map Prod.snd = _
    rw [hload, map_some]
  have hok : NoTeardown stubProcesses (.run 1 (fun _ => elfName) (fun _ => 0) (some 2)) :=
    ⟨2, p1, hload⟩
  have hrun1 : ProcRun NoTeardown stubProcesses p1 := .step 0 _ .nil rfl hok hstep
  have htest : ((bootSched.taskCreateUser 2).exec 2 [.add 2, .yield, .exit (some 0)]).any (fun s =>
      (s.search 2 fun c => s.cur.zombieOf c.toTask) == some (some (1, 2))) = true := by
    decide +kernel
  obtain ⟨s, hexec, hs⟩ := (Option.any_eq_true _ _).mp htest
  rw [beq_iff_eq] at hs
  rw [← hsched] at hexec
  obtain ⟨p, hrun, rfl⟩ := hrun1.exec (by simp [NoTeardown, ProcOp.allowed]) hexec
  refine ⟨p, p.switched (p.toSched.reap 1 2).leaveWait, hrun, ⟨1, hs⟩, ?_⟩
  show ((p.toSched.schedWait 2).map Prod.snd).map p.switched = _
  unfold Sched.schedWait
  rw [hs]
  rfl

/-- The theorem on this run. -/
theorem reaps_memoryReturned_stub : ∃ p p', Reaps p 2 2 p' ∧ ¬MemoryReturned p 2 p' := by
  obtain ⟨p, p', hrun, hreaps⟩ := stubProcesses_reaps
  exact ⟨p, p', hreaps, (reaps_memoryReturned_iff hreaps).2 stubProcesses booted_bootSched hrun
    (by decide)⟩

/-- The directory of the program is still in use when it has been reaped. -/
theorem reaped_directory_used : ∃ p p', ProcRun NoTeardown stubProcesses p ∧ Reaps p 2 2 p' ∧
    pageIsFree p'.machine.pmm (p.dirFrame 2) = false ∧ ¬MemoryReturned p 2 p' := by
  obtain ⟨p, p', hrun, hreaps⟩ := stubProcesses_reaps
  have hused := hreaps.dirFrame_used booted_bootSched hrun (by decide)
  refine ⟨p, p', hrun, hreaps, hused, fun hret => ?_⟩
  have hfree := hret.own _ (.inl rfl)
  rw [hused] at hfree
  cases hfree

end AliOS
