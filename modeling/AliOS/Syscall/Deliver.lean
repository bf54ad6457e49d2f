import AliOS.Syscall

/-!
# AliOS.Syscall.Deliver

What a system call stores.  `UserCall.deliver` says it in terms of the state before
the call: the data waiting in the pipe or the file, the exit code of the zombie, the
two lowest unused descriptors.  `UserCall.run_eq` shows that this is all: a call is a
series of byte stores at consecutive addresses and a change of the kernel's own
variables.
-/

namespace AliOS

open Lib List Option

/-- The next `n` bytes of a pipe. -/
def Pipe.next (p : Pipe) (n : Nat) : List UInt8 :=
  (List.range n).map fun i => p.at (p.tail + UInt32.ofNat i)

/-- Address and bytes of the stores of a call: the data waiting in the pipe or
the file, the exit code of the zombie, the numbers of the two free descriptors. -/
def UserCall.deliver (k : Kernel) : UserCall → Nat × List UInt8
  | .read fd buf len =>
    let f := k.current.fdTable fd.toNat
    (buf, if fd < 0 ∨ fd ≥ taskFdMax ∨ f.used = false then []
      else match f.type with
        | .pipe => (k.pipes f.pipeIdx).next (min (k.pipes f.pipeIdx).avail len)
        | .file => (alfsPread k.fs f.alfsIdx len f.offset).1.2
        | .unset => [])
  | .readOn pi buf len n => (buf + n, (k.pipes pi).next (min (k.pipes pi).avail (len - n)))
  | .wait exitPtr => (exitPtr,
      match k.queue.find? k.current.zombieOf with
      | some t => if exitPtr ≠ 0 ∧ asInt t.pid ≥ 0 then intBytes t.exitCode else []
      | none => [])
  | .pipe userFds => (userFds,
      match (pipeAlloc k.pipes).1, freeFds k.current.fdTable with
      | some _, (some rfd, some wfd) => intBytes rfd ++ intBytes wfd
      | _, _ => [])

theorem storeBytes_append (m : Machine) (p : Nat) (bs cs : List UInt8) :
    storeBytes m p (bs ++ cs) = (storeBytes m p bs).bind fun m =>
      storeBytes m (p + bs.length) cs := by
  induction bs generalizing m p with
  | nil => rfl
  | cons b bs ih =>
    rw [cons_append, storeBytes, storeBytes, bind_assoc]
    refine congrArg (Option.bind _) (funext fun m => ?_)
    rw [ih, length_cons, show p + (bs.length + 1) = p + 1 + bs.length by omega]

theorem Pipe.next_succ (p : Pipe) (n : Nat) :
    p.next (n + 1) = p.at p.tail :: ({ p with tail := p.tail + 1 } : Pipe).next n := by
  unfold Pipe.next
  rw [range_succ_eq_map, map_cons, List.map_map]
  congr 1
  · simp
  · refine map_congr_left fun i _ => ?_
    show p.at (p.tail + UInt32.ofNat (i + 1)) = p.at (p.tail + 1 + UInt32.ofNat i)
    rw [UInt32.ofNat_add, UInt32.add_comm (UInt32.ofNat i), UInt32.add_assoc]
    rfl

/-- The inner loop of `pipe_read` stores the next bytes of the pipe. -/
theorem drain_eq (buf n j r : Nat) (p : Pipe) (m : Machine) :
    forRangeM (drainStep buf n) j r (p, m) =
      (storeBytes m (buf + n + j) (p.next r)).map fun m =>
        ({ p with tail := p.tail + UInt32.ofNat r }, m) := by
  induction r generalizing j p m with
  | zero => simp [Pipe.next, storeBytes]
  | succ r ih =>
    rw [forRangeM_succ, Pipe.next_succ, storeBytes, drainStep, bind_map, Option.map_bind]
    refine congrArg (Option.bind _) (funext fun m => ?_)
    dsimp only [Function.comp]
    have hadd : p.tail + 1 + UInt32.ofNat r = p.tail + UInt32.ofNat (r + 1) := by
      rw [UInt32.ofNat_add, UInt32.add_comm (UInt32.ofNat r), UInt32.add_assoc]
      rfl
    rw [ih, ← hadd]
    rfl

/-- `pipe_read` up to the point where it returns or yields. -/
theorem pipeRead_eq (buf len n : Nat) (p : Pipe) : ∃ r p', ∀ m, pipeRead buf len n p m =
    (storeBytes m (buf + n) (p.next (min p.avail (len - n)))).map fun m => (r, p', m) := by
  by_cases hlt : n < len
  · by_cases h0 : p.avail = 0
    · refine ⟨(n, p.nwriters == 0), p, fun m => ?_⟩
      rw [pipeRead, dif_pos hlt, dif_pos h0, h0, Nat.zero_min]
      rfl
    · generalize htake : (if p.avail < len - n then p.avail else len - n) = take
      have hmin : min p.avail (len - n) = take := by
        rw [← htake]
        split <;> omega
      -- then the data is used up, or the buffer is full
      have hnext : ∀ p1, p1 = ({ p with tail := p.tail + UInt32.ofNat take } : Pipe) →
          ∃ r p', ∀ m, pipeRead buf len (n + take) p1 m = some (r, p', m) := by
        rintro p1 hp1
        by_cases hfull : n + take < len
        · have htail : UInt32.ofNat take = p.head - p.tail := by
            rw [← hmin, Nat.min_eq_left (by omega)]
            exact UInt32.ofNat_toNat
          have havail : p1.avail = 0 := by
            unfold Pipe.avail
            rw [hp1, htail]
            rw [UInt32.add_comm, UInt32.sub_add_cancel, UInt32.sub_self]
            rfl
          refine ⟨(n + take, p1.nwriters == 0), p1, fun m => ?_⟩
          rw [pipeRead, dif_pos hfull, dif_pos havail]
        · refine ⟨(n + take, true), p1, fun m => ?_⟩
          rw [pipeRead, dif_neg hfull]
      obtain ⟨r, p', hnext⟩ := hnext _ rfl
      refine ⟨r, p', fun m => ?_⟩
      rw [pipeRead, dif_pos hlt, dif_neg h0, hmin]
      dsimp only
      rw [htake, drain_eq, bind_map, map_eq_bind]
      exact congrArg (Option.bind _) (funext fun m => hnext m)
  · refine ⟨(n, true), p, fun m => ?_⟩
    rw [pipeRead, dif_neg hlt, Nat.sub_eq_zero_of_le (by omega), Nat.min_zero]
    rfl

/-- A call of `pipe_read` inside `sys_read`. -/
theorem Kernel.pipeRead_eq (k : Kernel) (pi buf len n : Nat) : ∃ finish :
    Machine → SysResult × Kernel,
    (∀ m, (finish m).2.machine = m) ∧ k.pipeRead pi buf len n =
      (storeBytes k.machine (buf + n) ((k.pipes pi).next (min (k.pipes pi).avail (len - n)))).map
        finish := by
  obtain ⟨r, p', hread⟩ := AliOS.pipeRead_eq buf len n (k.pipes pi)
  refine ⟨fun m => (if r.2 then .returned (asInt r.1) else .waiting r.1,
    { k with pipes := Function.update k.pipes pi p', machine := m }), fun _ => rfl, ?_⟩
  unfold Kernel.pipeRead
  rw [hread, Option.map_map]
  rfl

/-- **A call is its stores**: apart from them it only changes the kernel's own
variables. -/
theorem UserCall.run_eq (k : Kernel) (c : UserCall) : ∃ finish : Machine → SysResult × Kernel,
    (∀ m, (finish m).2.machine = m) ∧
      c.run k = (storeBytes k.machine (c.deliver k).1 (c.deliver k).2).map finish := by
  -- a call that stores nothing
  have hnone : ∀ r k', k'.machine = k.machine → ∃ finish : Machine → SysResult × Kernel,
      (∀ m, (finish m).2.machine = m) ∧ some (r, k') = (some k.machine).map finish := fun r k' hk =>
    ⟨fun m => (r, { k' with machine := m }), fun _ => rfl, by rw [map_some, ← hk]⟩
  cases c with
  | readOn pi buf len n => exact k.pipeRead_eq pi buf len n
  | read fd buf len =>
    dsimp only [UserCall.run, UserCall.deliver]
    unfold sysRead
    by_cases hfd : fd < 0 ∨ fd ≥ taskFdMax
    · rw [if_pos hfd, if_pos (by tauto)]
      exact hnone _ k rfl
    · rw [if_neg hfd]
      dsimp only
      generalize hf : k.current.fdTable fd.toNat = f
      cases hused : f.used with
      | false =>
        rw [Bool.false_and, Bool.false_and, if_neg (by decide), if_neg (by decide),
          if_pos (by tauto)]
        exact hnone _ k rfl
      | true =>
        have hin : ¬(fd < 0 ∨ fd ≥ taskFdMax ∨ true = false) := by tauto
        rw [Bool.true_and, Bool.true_and, if_neg hin]
        cases htype : f.type with
        | unset => exact hnone _ k rfl
        | pipe => exact k.pipeRead_eq f.pipeIdx buf len 0
        | file =>
          rw [← hf]
          refine ⟨_, fun m => ?_, rfl⟩
          split <;> rfl
  | wait exitPtr =>
    dsimp only [UserCall.run, UserCall.deliver]
    unfold sysWait schedWait
    cases hfind : k.queue.find? k.current.zombieOf with
    | none =>
      cases hany : k.queue.any fun t => t.parentPid == k.current.pid with
      | true => exact hnone _ _ rfl
      | false => exact hnone _ _ rfl
    | some t =>
      dsimp only
      by_cases hstore : exitPtr ≠ 0 ∧ asInt t.pid ≥ 0
      · rw [if_pos hstore, if_pos hstore]
        exact ⟨_, fun m => rfl, rfl⟩
      · rw [if_neg hstore, if_neg hstore]
        exact hnone _ _ rfl
  | pipe userFds =>
    dsimp only [UserCall.run, UserCall.deliver]
    unfold sysPipe
    cases halloc : pipeAlloc k.pipes with
    | mk pi pipes =>
      cases pi with
      | none => exact hnone _ k rfl
      | some pi =>
        cases hfds : freeFds k.current.fdTable with
        | mk r w =>
          cases r with
          | none => exact hnone _ _ rfl
          | some rfd =>
            cases w with
            | none => exact hnone _ _ rfl
            | some wfd =>
              dsimp only
              generalize hk' : ({ k with pipes := pipes } : Kernel).openPipe pi rfd wfd = k'
              have hm : k'.machine = k.machine := by rw [← hk']; rfl
              generalize k'.pipes.store k'.pipesAt userFds (intBytes rfd ++ intBytes wfd) = ps
              refine ⟨fun m => (.returned 0, { k' with machine := m, pipes := ps }),
                fun _ => rfl, ?_⟩
              rw [storeBytes_append, Option.map_bind, hm]
              rfl

end AliOS
