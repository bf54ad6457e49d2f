import AliOS.Pipe.Fifo
import AliOS.Syscall.Files
import AliOS.Syscall.Isolation

/-!
# AliOS.Syscall.Pointers

The seven system calls that take a pointer from user mode.  None of them checks it: the
call stores or loads where the pointer says, in ring 0.  `PtrCall.Touches` gives the
addresses, from the state before the call; a call reaches an address only after the
accesses before it went through.  `PtrCall.Exact` says that these are its accesses.
`PtrCall.Safe` is what the user range is for, and the main result says when a call keeps to
it: when the pointer is a good one, or when the call fails before it comes to use it.
-/

namespace AliOS

open Lib Function Option List

/-! ## addresses -/

/-- The `n` bytes from `p` on lie in the user range. -/
def InUser (p n : Nat) : Prop := ∀ i < n, UserAddr ((p + i) % 2 ^ 32)

/-- The bytes before `p + i` can be loaded. -/
def LoadReaches (m : Machine) (p i : Nat) : Prop :=
  ∀ j < i, (kload8 m ((p + j) % 2 ^ 32)).isSome = true

/-- They can, and none is a terminator. -/
def StrReaches (m : Machine) (p i : Nat) : Prop :=
  ∀ j < i, ∃ c, c ≠ 0 ∧ kload8 m ((p + j) % 2 ^ 32) = some c

/-- The string at `p`, of which at most `n` characters are looked at, lies in the user
range. -/
def StrInUser (m : Machine) (p n : Nat) : Prop :=
  ∀ i < n, StrReaches m p i → UserAddr ((p + i) % 2 ^ 32)

/-- At most `n` characters of the string at `p`. -/
def loadStr (m : Machine) (p : Nat) : Nat → Option (List UInt8)
  | 0 => some []
  | n + 1 => (kload8 m (p % 2 ^ 32)).bind fun c =>
    if c = 0 then some [] else (loadStr m (p + 1) n).map (c :: ·)

/-! ## the calls -/

/-- The calls, with their arguments as they come from the registers. -/
inductive PtrCall where
  | read (fd : Int) (buf len : Nat)
  | wait (exitPtr : Nat)
  | pipe (userFds : Nat)
  | write (fd buf len : Nat)
  | open (name : Nat)
  | openW (uname : Nat) (append : Bool)
  | exec (uname : Nat)

/-- `path_resolve` reads its argument up to the terminator; after 2^32 characters the
pointer is back at the first. -/
def strMax : Nat := 2 ^ 32

/-- Characters of the name that `sys_exec` copies. -/
def knameMax : Nat := 63

/-- A call of a task with the working directory `cwd`; result, `write_buf` and state.
`load` is what `sys_exec` does once it has its path: `none` if it fails, and ends in
`sched_exit`, which does not return. -/
def PtrCall.run (k : Kernel) (cwd : CStr) (writeBuf : Bytes)
    (load : Kernel → CStr → Option Kernel) :
    PtrCall → Option (SysResult × Bytes × Kernel)
  | .read fd buf len => (sysRead k fd buf len).map fun r => (r.1, writeBuf, r.2)
  | .wait exitPtr => (sysWait k exitPtr).map fun r => (r.1, writeBuf, r.2)
  | .pipe userFds => (sysPipe k userFds).map fun r => (r.1, writeBuf, r.2)
  | .write fd buf len => sysWrite k writeBuf fd buf len
  | .open name =>
    -- the descriptor is looked for before the name is read
    if freeFd k.current.fdTable = none then some (.returned (-1), writeBuf, k)
    else (loadStr k.machine name strMax).map fun s =>
      let r := sysOpen k cwd (CStr.ofBytes s)
      (.returned r.1, writeBuf, r.2)
  | .openW uname append =>
    if freeFd k.current.fdTable = none then some (.returned (-1), writeBuf, k)
    else (loadStr k.machine uname strMax).map fun s =>
      let r := sysOpenW k cwd (CStr.ofBytes s) append
      (.returned r.1, writeBuf, r.2)
  | .exec uname =>
    (loadStr k.machine uname knameMax).map fun s =>
      match load k (pathResolve cwd (CStr.ofBytes s)) with
      | some k' => (.returned 0, writeBuf, k')
      | none => (.waiting 0, writeBuf, k)

/-- How many bytes `sys_write` loads, in its first turn if it writes to a pipe. -/
def writeLoads (k : Kernel) (writeBuf : Bytes) (fd len : Nat) : Nat :=
  let f := k.current.fdTable fd
  if fd ≥ taskFdMax then 0
  else if f.used && f.type == .pipe then
    if (k.pipes f.pipeIdx).nreaders = 0 then 0 else min (k.pipes f.pipeIdx).space len
  else if f.used && f.type == .file then
    if (f.offset + len) % 2 ^ 32 > writeBufSize then 0
    else if (k.stageOld writeBuf f.alfsIdx f.offset).1 then len else 0
  else if fd = 1 ∨ fd = 2 then len
  else 0

/-- The stores of a call reach their `i`th byte. -/
def StoresTo (k : Kernel) (c : UserCall) (a : Nat) : Prop :=
  ∃ i < (c.deliver k).2.length, a = ((c.deliver k).1 + i) % 2 ^ 32 ∧
    (storeBytes k.machine (c.deliver k).1 ((c.deliver k).2.take i)).isSome = true

/-- The addresses that a call accesses through its pointer, until it returns or waits. -/
def PtrCall.Touches (k : Kernel) (writeBuf : Bytes) : PtrCall → Nat → Prop
  | .read fd buf len, a => StoresTo k (.read fd buf len) a
  | .wait exitPtr, a => StoresTo k (.wait exitPtr) a
  | .pipe userFds, a => StoresTo k (.pipe userFds) a
  | .write fd buf len, a =>
    ∃ i < writeLoads k writeBuf fd len, a = (buf + i) % 2 ^ 32 ∧ LoadReaches k.machine buf i
  | .open p, a | .openW p _, a => freeFd k.current.fdTable ≠ none ∧
      ∃ i < strMax, a = (p + i) % 2 ^ 32 ∧ StrReaches k.machine p i
  | .exec p, a => ∃ i < knameMax, a = (p + i) % 2 ^ 32 ∧ StrReaches k.machine p i

/-- The addresses it accesses after it has waited, in the state `k'`, when it has moved `n`
bytes. -/
def PtrCall.TouchesLater (k k' : Kernel) (n : Nat) : PtrCall → Nat → Prop
  | .read fd buf len, a => StoresTo k' (.readOn (k.current.fdTable fd.toNat).pipeIdx buf len n) a
  | .write fd buf len, a => ∃ i < min (k'.pipes (k.current.fdTable fd).pipeIdx).space (len - n),
      a = (buf + n + i) % 2 ^ 32
  | .wait exitPtr, a => StoresTo k' (.wait exitPtr) a
  | _, _ => False

/-- `Touches` gives the accesses of a call.  One that stores is a series of stores to these
addresses.  One that loads ends in a page fault just if one of them is not mapped; a load from
any other address would fault, too, where only that is not mapped.  The same holds for the
later turns of `sys_write`. -/
def PtrCall.Exact (k : Kernel) (cwd : CStr) (writeBuf : Bytes)
    (load : Kernel → CStr → Option Kernel) (c : PtrCall) : Prop :=
  let faults := c.run k cwd writeBuf load = none ↔
    ∃ a, c.Touches k writeBuf a ∧ kload8 k.machine a = none
  match c with
  | .read _ _ _ | .wait _ | .pipe _ => ∃ p bs, ∃ finish : Machine → SysResult × Bytes × Kernel,
      (∀ m, (finish m).2.2.machine = m) ∧
      c.run k cwd writeBuf load = (storeBytes k.machine p bs).map finish ∧
      ∀ a, c.Touches k writeBuf a ↔ ∃ i < bs.length, a = (p + i) % 2 ^ 32 ∧
        (storeBytes k.machine p (bs.take i)).isSome = true
  | .write fd buf len => faults ∧ ∀ (k' : Kernel) n,
      k'.pipeWriteOn (k.current.fdTable fd).pipeIdx buf len n = none →
        ∃ a, c.TouchesLater k k' n a ∧ kload8 k'.machine a = none
  | _ => faults

/-- The pointer with its length lies in the user range.  NULL is no pointer for `sys_wait`. -/
def PtrCall.Inside (m : Machine) : PtrCall → Prop
  | .read _ buf len => InUser buf len
  | .write _ buf len => InUser buf len
  | .wait exitPtr => exitPtr = 0 ∨ InUser exitPtr 4
  | .pipe userFds => InUser userFds 8
  | .open p => StrInUser m p strMax
  | .openW p _ => StrInUser m p strMax
  | .exec p => StrInUser m p knameMax

/-- The kernel's variables are as before. -/
structure SameVars (k k' : Kernel) : Prop where
  ready : k'.fs.ready = k.fs.ready
  super : k'.fs.super = k.fs.super
  dir : k'.fs.dir = k.fs.dir
  pipes : k'.pipes = k.pipes
  current : k'.current = k.current
  queue : k'.queue = k.queue

/-- A call keeps to the user range, and refuses a pointer that leaves it. -/
structure PtrCall.Safe (k : Kernel) (cwd : CStr) (writeBuf : Bytes)
    (load : Kernel → CStr → Option Kernel) (c : PtrCall) : Prop where
  touches : ∀ a, c.Touches k writeBuf a → UserAddr a
  later : ∀ n wb k₁, c.run k cwd writeBuf load = some (.waiting n, wb, k₁) →
    ∀ k' n' a, c.TouchesLater k k' n' a → UserAddr a
  refuses : ¬c.Inside k.machine →
    ∃ k', c.run k cwd writeBuf load = some (.returned (-1), writeBuf, k') ∧ SameVars k k'

/-- The call fails before it uses its pointer. -/
def PtrCall.FailsFirst (k : Kernel) (writeBuf : Bytes) : PtrCall → Prop
  | .read fd buf len =>
    let f := k.current.fdTable fd.toNat
    let got := (alfsPread k.fs f.alfsIdx len f.offset).1
    fd < 0 ∨ fd ≥ taskFdMax ∨ f.used = false ∨ f.type = .unset ∨
      -- a file that cannot be read, or not to its end
      f.type = .file ∧ got.1 = -1 ∧ InUser buf got.2.length ∧
        (storeBytes k.machine buf got.2).isSome = true
  | .wait _ => ∀ t ∈ k.queue, t.parentPid ≠ k.current.pid
  | .pipe _ =>
    let fds := freeFds k.current.fdTable
    -- a pipe that is allocated and closed again has its counters set back
    ∀ pi, (pipeAlloc k.pipes).1 = some pi →
      ¬(fds.1.isSome = true ∧ fds.2.isSome = true) ∧ (k.pipes pi).head = 0 ∧ (k.pipes pi).tail = 0
  | .write fd _ len =>
    let f := k.current.fdTable fd
    let old := k.stageOld writeBuf f.alfsIdx f.offset
    if fd ≥ taskFdMax then True
    else if f.used && f.type == .pipe then (k.pipes f.pipeIdx).nreaders = 0
    else if f.used && f.type == .file then
      (f.offset + len) % 2 ^ 32 > writeBufSize ∨ old.1 = false ∧ old.2.1 = writeBuf
    else fd ≠ 1 ∧ fd ≠ 2
  | .open _ => freeFd k.current.fdTable = none
  | .openW _ _ => freeFd k.current.fdTable = none
  | .exec _ => False

/-! ## what the accesses can be -/

section

variable {k : Kernel} {cwd : CStr} {wb : Bytes} {load : Kernel → CStr → Option Kernel}

theorem SameVars.refl (k : Kernel) : SameVars k k := ⟨rfl, rfl, rfl, rfl, rfl, rfl⟩

theorem length_intBytes (v : Int) : (intBytes v).length = 4 := length_slice _ _ _

/-- A call stores to the bytes its pointer stands for. -/
theorem length_deliver_read (fd : Int) (buf len : Nat) :
    ((UserCall.read fd buf len).deliver k).2.length ≤ len := by
  dsimp only [UserCall.deliver]
  split
  · simp
  · cases (k.current.fdTable fd.toNat).type with
    | unset => simp
    | pipe => simp [Pipe.next]
    | file => exact length_alfsPread_le _ _ _ _

theorem length_deliver_readOn (pi buf len n : Nat) :
    ((UserCall.readOn pi buf len n).deliver k).2.length ≤ len - n := by
  simp [UserCall.deliver, Pipe.next]

theorem length_deliver_wait (p : Nat) :
    ((UserCall.wait p).deliver k).2.length ≤ if p = 0 then 0 else 4 := by
  dsimp only [UserCall.deliver]
  split
  · split
    · next hp => simp [length_intBytes, hp.1]
    · simp
  · simp

theorem length_deliver_pipe (p : Nat) : ((UserCall.pipe p).deliver k).2.length ≤ 8 := by
  dsimp only [UserCall.deliver]
  split <;> simp [length_intBytes]

theorem StoresTo.userAddr {c : UserCall} {a n : Nat} (h : StoresTo k c a)
    (hn : (c.deliver k).2.length ≤ n) (hin : InUser (c.deliver k).1 n) : UserAddr a := by
  obtain ⟨i, hi, rfl, -⟩ := h
  exact hin i (by omega)

theorem StoresTo.userAddr_wait {p a : Nat} (h : StoresTo k (.wait p) a) (hin : p = 0 ∨ InUser p 4) :
    UserAddr a := by
  have hlen := length_deliver_wait (k := k) p
  rcases hin with rfl | hin
  · obtain ⟨i, hi, -⟩ := h
    rw [if_pos rfl] at hlen
    omega
  · exact h.userAddr (hlen.trans (by split <;> omega)) hin

theorem writeLoads_le (fd len : Nat) : writeLoads k wb fd len ≤ len := by
  unfold writeLoads
  dsimp only
  repeat' split
  all_goals omega

/-- Stores that all go through reach every byte. -/
theorem storesTo_of_isSome {c : UserCall}
    (h : (storeBytes k.machine (c.deliver k).1 (c.deliver k).2).isSome)
    {i : Nat} (hi : i < (c.deliver k).2.length) :
    StoresTo k c (((c.deliver k).1 + i) % 2 ^ 32) := by
  refine ⟨i, hi, rfl, ?_⟩
  rw [← take_append_drop i (c.deliver k).2, storeBytes_append] at h
  cases hfirst : storeBytes k.machine (c.deliver k).1 ((c.deliver k).2.take i) with
  | none => simp [hfirst] at h
  | some m => rfl

/-- A call that keeps to a good pointer. -/
theorem PtrCall.safe_of_inside {c : PtrCall} (hin : c.Inside k.machine) : c.Safe k cwd wb load := by
  refine ⟨fun a ha => ?_, fun _ _ _ _ k' n a ha => ?_, fun hout => absurd hin hout⟩
  · cases c with
    | read fd buf len => exact ha.userAddr (length_deliver_read fd buf len) hin
    | wait p => exact ha.userAddr_wait hin
    | pipe p => exact ha.userAddr (length_deliver_pipe p) hin
    | write fd buf len =>
      obtain ⟨i, hi, rfl, -⟩ := ha
      exact hin i (Nat.lt_of_lt_of_le hi (writeLoads_le fd len))
    | «open» p =>
      obtain ⟨-, i, hi, rfl, hreach⟩ := ha
      exact hin i hi hreach
    | openW p append =>
      obtain ⟨-, i, hi, rfl, hreach⟩ := ha
      exact hin i hi hreach
    | exec p =>
      obtain ⟨i, hi, rfl, hreach⟩ := ha
      exact hin i hi hreach
  · cases c with
    | read fd buf len =>
      refine ha.userAddr (length_deliver_readOn _ buf len n) fun i hi => ?_
      show UserAddr ((buf + n + i) % 2 ^ 32)
      rw [Nat.add_assoc]
      exact hin (n + i) (by omega)
    | write fd buf len =>
      obtain ⟨i, hi, rfl⟩ := ha
      rw [Nat.add_assoc]
      exact hin (n + i) (by omega)
    | wait p => exact ha.userAddr_wait hin
    | _ => exact ha.elim

/-- The call fails, and touches nothing it should not. -/
def PtrCall.Refuses (c : PtrCall) (k : Kernel) (cwd : CStr) (wb : Bytes)
    (load : Kernel → CStr → Option Kernel) : Prop :=
  (∀ a, c.Touches k wb a → UserAddr a) ∧ ∃ k', c.run k cwd wb load = some (.returned (-1), wb, k') ∧
    SameVars k k'

/-- For a bad pointer that is enough. -/
theorem PtrCall.safe_iff {c : PtrCall} {P : Prop}
    (h : ¬c.Inside k.machine → (c.Refuses k cwd wb load ↔ P)) :
    c.Safe k cwd wb load ↔ c.Inside k.machine ∨ P := by
  by_cases hin : c.Inside k.machine
  · exact iff_of_true (safe_of_inside hin) (.inl hin)
  · rw [or_iff_right hin, ← h hin]
    constructor
    · exact fun hsafe => ⟨hsafe.touches, hsafe.refuses hin⟩
    · rintro ⟨htouch, k', hrun, hsame⟩
      refine ⟨htouch, fun n wb' k₁ hwait => ?_, fun _ => ⟨k', hrun, hsame⟩⟩
      rw [hrun] at hwait
      simp at hwait

/-! ## sys_read -/

theorem Pipe.avail_taken (p : Pipe) {t : Nat} (h : t ≤ p.avail) :
    ({ p with tail := p.tail + UInt32.ofNat t } : Pipe).avail = p.avail - t := by
  unfold Pipe.avail at *
  have ht : (UInt32.ofNat t).toNat = t := by
    exact Nat.mod_eq_of_lt (Nat.lt_of_le_of_lt h (p.head - p.tail).toNat_lt)
  have hle : UInt32.ofNat t ≤ p.head - p.tail := by rw [UInt32.le_iff_toNat_le, ht]; exact h
  rw [show p.head - (p.tail + UInt32.ofNat t) = p.head - p.tail - UInt32.ofNat t by grind,
    UInt32.toNat_sub_of_le _ _ hle, ht]

/-- `pipe_read` returns the number of bytes it has taken from the pipe. -/
theorem pipeRead_taken {buf len n r : Nat} {p p' : Pipe} {m m' : Machine} {done : Bool}
    (h : pipeRead buf len n p m = some ((r, done), p', m')) :
    ∃ t ≤ p.avail, r = n + t ∧ p' = { p with tail := p.tail + UInt32.ofNat t } := by
  -- induction on the bytes still wanted
  induction hd : len - n using Nat.strongRecOn generalizing n p m with
  | ind d ih =>
    rw [pipeRead] at h
    by_cases hlt : n < len
    · rw [dif_pos hlt] at h
      by_cases h0 : p.avail = 0
      · rw [dif_pos h0] at h
        obtain ⟨⟨rfl, -⟩, rfl, -⟩ := h
        exact ⟨0, Nat.zero_le _, rfl, by simp⟩
      · rw [dif_neg h0] at h
        dsimp only at h
        generalize htake : (if p.avail < len - n then p.avail else len - n) = take at h
        have hle : 0 < take ∧ take ≤ p.avail := by
          rw [← htake]
          split <;> omega
        rw [drain_eq, bind_map] at h
        obtain ⟨m₁, -, h⟩ := bind_eq_some_iff.mp h
        obtain ⟨t, ht, rfl, rfl⟩ := ih (len - (n + take)) (by omega) h rfl
        refine ⟨take + t, ?_, by omega, ?_⟩
        · rw [p.avail_taken hle.2] at ht
          omega
        · rw [UInt32.ofNat_add, ← UInt32.add_assoc]
    · rw [dif_neg hlt] at h
      obtain ⟨⟨rfl, -⟩, rfl, -⟩ := h
      exact ⟨0, Nat.zero_le _, rfl, by simp⟩

/-- A read from a pipe does not return -1 and leave the pipe alone. -/
theorem Kernel.pipeRead_ne {pi buf len : Nat} {k' : Kernel}
    (h : k.pipeRead pi buf len 0 = some (.returned (-1), k')) : k'.pipes ≠ k.pipes := by
  obtain ⟨⟨⟨r, done⟩, p', m'⟩, hread, heq⟩ := map_eq_some_iff.mp h
  obtain ⟨t, ht, rfl, rfl⟩ := pipeRead_taken hread
  cases done with
  | false => simp at heq
  | true =>
    simp only [if_true, Prod.mk.injEq, SysResult.returned.injEq, Nat.zero_add] at heq
    obtain ⟨hret, rfl⟩ := heq
    intro hsame
    have hpipe := congrFun hsame pi
    simp only [update_self] at hpipe
    have hzero : UInt32.ofNat t = 0 := by grind
    have ht0 : t = 0 := by
      have hlt := ((k.pipes pi).head - (k.pipes pi).tail).toNat_lt
      have htoNat := congrArg UInt32.toNat hzero
      rw [UInt32.toNat_ofNat', Nat.mod_eq_of_lt (by unfold Pipe.avail at ht; omega)] at htoNat
      exact htoNat
    subst ht0
    exact absurd hret (by decide)

theorem alfsPread_super_same (fs : Fs) (idx : Int) (len off : Nat) :
    (alfsPread fs idx len off).2.super = fs.super := by
  rw [alfsPread_eq]
  split <;> rfl

/-- A call that delivers nothing and returns -1. -/
theorem read_refuses {fd : Int} {buf len : Nat}
    (hrun : sysRead k fd buf len = some (.returned (-1), k))
    (hnone : ((UserCall.read fd buf len).deliver k).2 = []) :
    (PtrCall.read fd buf len).Refuses k cwd wb load := by
  refine ⟨?_, k, by rw [PtrCall.run, hrun]; rfl, .refl k⟩
  rintro a ⟨i, hi, -⟩
  simp [hnone] at hi

/-- A read of a file fails with the disk.  What it has read by then is stored, and has to
go to user space. -/
theorem read_file_refuses_iff {fd : Int} {buf len : Nat} {got : (Int × List UInt8) × Fs}
    (hrun : sysRead k fd buf len = k.fileRead fd.toNat buf len)
    (hdeliver : ((UserCall.read fd buf len).deliver k).2 = got.1.2)
    (hgot : alfsPread k.fs (k.current.fdTable fd.toNat).alfsIdx len
      (k.current.fdTable fd.toNat).offset = got) :
    (PtrCall.read fd buf len).Refuses k cwd wb load ↔ got.1.1 = -1 ∧ InUser buf got.1.2.length ∧
      (storeBytes k.machine buf got.1.2).isSome := by
  have hframe := alfsPread_frame k.fs (k.current.fdTable fd.toNat).alfsIdx len
    (k.current.fdTable fd.toNat).offset
  have hsuper :=
    alfsPread_super_same k.fs (k.current.fdTable fd.toNat).alfsIdx len
      (k.current.fdTable fd.toNat).offset
  rw [hgot] at hframe hsuper
  rw [PtrCall.Refuses, PtrCall.run, hrun, Kernel.fileRead, hgot, ← hdeliver]
  constructor
  · rintro ⟨htouch, k', hret, -⟩
    rw [Option.map_map] at hret
    obtain ⟨m, hstore, heq⟩ := map_eq_some_iff.mp hret
    have hsome : (storeBytes k.machine buf ((UserCall.read fd buf len).deliver k).2).isSome := by
      rw [hstore]
      rfl
    simp only [Function.comp_apply, Prod.mk.injEq, SysResult.returned.injEq] at heq
    exact ⟨heq.1, fun i hi => htouch _ (storesTo_of_isSome hsome hi), hsome⟩
  · rintro ⟨hret, hin, hsome⟩
    obtain ⟨m, hstore⟩ := isSome_iff_exists.mp hsome
    refine ⟨fun a ha => StoresTo.userAddr ha le_rfl hin, { k with machine := m, fs := got.2 }, ?_,
      hframe.1, hsuper, hframe.2, rfl, rfl, rfl⟩
    rw [hstore]
    simp [hret]

/-- Without an open pipe or file nothing is delivered. -/
theorem deliver_read_none {fd : Int} (buf len : Nat) (h : fd < 0 ∨ fd ≥ taskFdMax ∨
    (k.current.fdTable fd.toNat).used = false ∨ (k.current.fdTable fd.toNat).type = .unset) :
    ((UserCall.read fd buf len).deliver k).2 = [] := by
  dsimp only [UserCall.deliver]
  split
  · rfl
  · rw [show (k.current.fdTable fd.toNat).type = .unset by tauto]

theorem read_refuses_iff (fd : Int) (buf len : Nat) :
    (PtrCall.read fd buf len).Refuses k cwd wb load ↔
      (PtrCall.read fd buf len).FailsFirst k wb := by
  have hrun : sysRead k fd buf len = sysRead k fd buf len := rfl
  conv at hrun => rhs; unfold sysRead
  unfold PtrCall.FailsFirst
  dsimp only at hrun ⊢
  by_cases hfd : fd < 0 ∨ fd ≥ taskFdMax
  · rw [if_pos hfd] at hrun
    exact iff_of_true (read_refuses hrun (deliver_read_none buf len (by tauto))) (by tauto)
  rw [if_neg hfd] at hrun
  have hfd' : ¬fd < 0 ∧ ¬fd ≥ taskFdMax := by tauto
  cases hused : (k.current.fdTable fd.toNat).used with
  | false =>
    refine iff_of_true (read_refuses (by simpa [hused] using hrun) (deliver_read_none buf len ?_))
      (by tauto)
    exact .inr (.inr (.inl hused))
  | true =>
    simp only [hused, Bool.true_and] at hrun
    simp only [hfd'.1, hfd'.2, Bool.true_eq_false, false_or]
    cases htype : (k.current.fdTable fd.toNat).type with
    | unset =>
      rw [htype] at hrun
      refine iff_of_true (read_refuses hrun (deliver_read_none buf len ?_)) (.inl rfl)
      exact .inr (.inr (.inr htype))
    | pipe =>
      rw [htype] at hrun
      refine iff_of_false ?_ (by simp)
      rintro ⟨-, k', hret, hsame⟩
      rw [PtrCall.run, hrun] at hret
      obtain ⟨⟨v, k₁⟩, hread, heq⟩ := map_eq_some_iff.mp hret
      obtain ⟨rfl, rfl⟩ := heq
      exact Kernel.pipeRead_ne hread hsame.pipes
    | file =>
      rw [htype] at hrun
      simp only [reduceCtorEq, true_and, false_or]
      refine read_file_refuses_iff hrun ?_ rfl
      dsimp only [UserCall.deliver]
      rw [if_neg (by rw [hused]; tauto), htype]

/-! ## sys_wait and sys_pipe -/

theorem wait_refuses_iff (p : Nat) :
    (PtrCall.wait p).Refuses k cwd wb load ↔ (PtrCall.wait p).FailsFirst k wb := by
  cases hfind : k.queue.find? k.current.zombieOf with
  | some t =>
    have hmem := mem_of_find?_eq_some hfind
    have hzombie := find?_some hfind
    refine iff_of_false ?_ fun hno =>
      hno t hmem (by simp [Task.zombieOf] at hzombie; exact hzombie.2)
    rintro ⟨-, k', hret, hsame⟩
    obtain ⟨⟨v, k₁⟩, hwait, heq⟩ := map_eq_some_iff.mp hret
    obtain ⟨rfl, rfl⟩ := heq
    -- the zombie is gone from the queue
    have hqueue : k₁.queue = k.queue.eraseP k.current.zombieOf := by
      unfold sysWait schedWait at hwait
      rw [hfind] at hwait
      dsimp only at hwait
      split at hwait
      · obtain ⟨m, -, heq⟩ := map_eq_some_iff.mp hwait
        exact (congrArg (fun r : SysResult × Kernel => r.2.queue) heq).symm
      · exact (congrArg (fun r : SysResult × Kernel => r.2.queue) (some.inj hwait)).symm
    have hlen := congrArg length (hqueue.symm.trans hsame.queue)
    rw [length_eraseP_of_mem hmem hzombie] at hlen
    have := length_pos_of_mem hmem
    omega
  | none =>
    have hdeliver : ((UserCall.wait p).deliver k).2 = [] := by
      simp only [UserCall.deliver, hfind]
    cases hany : k.queue.any fun t => t.parentPid == k.current.pid with
    | true =>
      refine iff_of_false ?_ fun hno => ?_
      · rintro ⟨-, k', hret, -⟩
        simp [PtrCall.run, sysWait, schedWait, hfind, hany] at hret
      · obtain ⟨t, ht, heq⟩ := any_eq_true.mp hany
        exact hno t ht (by simpa using heq)
    | false =>
      refine iff_of_true ⟨?_, k, ?_, .refl k⟩ fun t ht heq => ?_
      · rintro a ⟨i, hi, -⟩
        simp [hdeliver] at hi
      · simp [PtrCall.run, sysWait, schedWait, hfind, hany]
      · have := any_eq_false.mp hany t ht
        simp [heq] at this

/-- A pipe that is allocated and closed again has its counters set back. -/
theorem pipeAlloc_closed {ps ps' : Pipes} {pi : Nat} (h : pipeAlloc ps = (some pi, ps')) :
    pipeCloseWrite (pipeCloseRead ps' pi) pi = ps ↔ (ps pi).head = 0 ∧ (ps pi).tail = 0 := by
  obtain ⟨hlt, hreaders, hwriters, rfl⟩ := pipeAlloc_some h
  have hclosed : pipeCloseWrite (pipeCloseRead (update ps pi
      { ps pi with head := 0, tail := 0, nreaders := 1, nwriters := 1 }) pi) pi =
      update ps pi { ps pi with head := 0, tail := 0 } := by
    simp [pipeCloseRead, pipeCloseWrite, hlt, hreaders, hwriters]
  rw [hclosed, update_eq_self_iff]
  cases hp : ps pi
  simp [eq_comm]

theorem pipe_refuses_iff (p : Nat) :
    (PtrCall.pipe p).Refuses k cwd wb load ↔ (PtrCall.pipe p).FailsFirst k wb := by
  unfold PtrCall.FailsFirst
  have hnone : ((UserCall.pipe p).deliver k).2 = [] → ∀ a, (PtrCall.pipe p).Touches k wb a →
      UserAddr a := by
    rintro hdeliver a ⟨i, hi, -⟩
    simp [hdeliver] at hi
  cases halloc : pipeAlloc k.pipes with
  | mk pi ps =>
    cases pi with
    | none =>
      refine iff_of_true ⟨hnone ?_, k, ?_, .refl k⟩ (by simp)
      · simp only [UserCall.deliver, halloc]
      · simp [PtrCall.run, sysPipe, halloc]
    | some pi =>
      cases hfds : freeFds k.current.fdTable with
      | mk rfd wfd =>
        by_cases hboth : rfd.isSome = true ∧ wfd.isSome = true
        · refine iff_of_false ?_ fun hno => (hno pi rfl).1 hboth
          obtain ⟨⟨r, rfl⟩, w, rfl⟩ := hboth.imp isSome_iff_exists.mp isSome_iff_exists.mp
          rintro ⟨-, k', hret, -⟩
          simp only [PtrCall.run, sysPipe, halloc, hfds] at hret
          obtain ⟨x, hx, heq⟩ := map_eq_some_iff.mp hret
          obtain ⟨m, -, hx⟩ := bind_eq_some_iff.mp hx
          obtain ⟨m', -, rfl⟩ := map_eq_some_iff.mp hx
          simp at heq
        · have hrun : (PtrCall.pipe p).run k cwd wb load =
              some (.returned (-1), wb,
                { k with pipes := pipeCloseWrite (pipeCloseRead ps pi) pi }) := by
            cases rfd <;> cases wfd <;> simp_all [PtrCall.run, sysPipe]
          have hdeliver : ((UserCall.pipe p).deliver k).2 = [] := by
            cases rfd <;> cases wfd <;> simp_all [UserCall.deliver]
          have hclosed := pipeAlloc_closed halloc
          constructor
          · rintro ⟨-, k', hret, hsame⟩ pi' hpi
            cases hpi
            obtain rfl : { k with pipes := pipeCloseWrite (pipeCloseRead ps pi) pi } = k' := by
              simpa [hrun] using hret
            exact ⟨hboth, hclosed.mp hsame.pipes⟩
          · intro h
            exact ⟨hnone hdeliver, _, hrun, rfl, rfl, rfl, hclosed.mpr (h pi rfl).2, rfl, rfl⟩

/-! ## sys_write -/

section

variable {m : Machine} {p n : Nat}

theorem loadReaches_zero (m : Machine) (p : Nat) : LoadReaches m p 0 :=
  fun j hj => absurd hj (Nat.not_lt_zero j)

theorem loadReaches_succ : LoadReaches m p (n + 1) ↔
    LoadReaches m p n ∧ (kload8 m ((p + n) % 2 ^ 32)).isSome :=
  Nat.forall_lt_succ_right

/-- A loop that loads a byte in each turn ends if it can load all. -/
theorem isSome_loadLoop {σ : Type} {f : Nat → UInt8 → σ → σ} {s : σ} :
    (forRangeM (fun i s => (kload8 m ((p + i) % 2 ^ 32)).map fun b => f i b s) 0 n s).isSome ↔
      LoadReaches m p n := by
  constructor
  · intro h
    obtain ⟨s', hs'⟩ := isSome_iff_exists.mp h
    have hrun := forRangeM_induct (fun i _ => LoadReaches m p i) hs' (loadReaches_zero m p) ?_
    · rwa [Nat.zero_add] at hrun
    · intro i t t' _ _ hreach hstep
      obtain ⟨b, hb, -⟩ := map_eq_some_iff.mp hstep
      exact loadReaches_succ.mpr ⟨hreach, by rw [hb]; rfl⟩
  · intro h
    obtain ⟨s', hs', -⟩ := forRangeM_total (fun _ _ => True)
      (f := fun i s => (kload8 m ((p + i) % 2 ^ 32)).map fun b => f i b s)
      (a := 0) (n := n) (s := s) trivial fun i t _ hi _ => by
        obtain ⟨b, hb⟩ := isSome_iff_exists.mp (h i (by omega))
        exact ⟨_, by rw [hb]; rfl, trivial⟩
    exact isSome_iff_exists.mpr ⟨s', hs'⟩

/-- If not, there is a first byte that it cannot load. -/
theorem not_loadReaches (h : ¬LoadReaches m p n) :
    ∃ i < n, LoadReaches m p i ∧ kload8 m ((p + i) % 2 ^ 32) = none := by
  induction n with
  | zero => exact absurd (loadReaches_zero m p) h
  | succ n ih =>
    by_cases hn : LoadReaches m p n
    · refine ⟨n, Nat.lt_succ_self n, hn, ?_⟩
      simpa [loadReaches_succ, hn] using h
    · obtain ⟨i, hi, hfirst⟩ := ih hn
      exact ⟨i, Nat.lt_succ_of_lt hi, hfirst⟩

end

theorem Kernel.stageOld_machine (k : Kernel) (wb : Bytes) (idx : Int) (off : Nat) :
    (k.stageOld wb idx off).2.2.machine = k.machine := by
  unfold Kernel.stageOld
  split <;> rfl

theorem Kernel.sameVars_stageOld (k : Kernel) (wb : Bytes) (idx : Int) (off : Nat) :
    SameVars k (k.stageOld wb idx off).2.2 := by
  unfold Kernel.stageOld
  split
  · have hframe := alfsPread_frame k.fs idx off 0
    exact ⟨hframe.1, alfsPread_super_same k.fs idx off 0, hframe.2, rfl, rfl, rfl⟩
  · exact .refl k

section

variable {fd buf len : Nat}

theorem Kernel.fileWrite_unread (h : ¬((k.current.fdTable fd).offset + len) % 2 ^ 32 > writeBufSize)
    {wb' : Bytes} {k' : Kernel}
    (hold : k.stageOld wb (k.current.fdTable fd).alfsIdx (k.current.fdTable fd).offset =
      (false, wb', k')) :
    k.fileWrite wb fd buf len = some (-1, wb', k') := by
  unfold Kernel.fileWrite
  rw [if_neg h, hold]

/-- A turn on a pipe comes to its end if its bytes can be loaded. -/
theorem Kernel.isSome_pipeWriteOn {pi n : Nat} : (k.pipeWriteOn pi buf len n).isSome ↔
    LoadReaches k.machine (buf + n)
      (if (k.pipes pi).nreaders = 0 then 0 else min (k.pipes pi).space (len - n)) := by
  have hzero := loadReaches_zero k.machine (buf + n)
  unfold Kernel.pipeWriteOn pipeWriteTurn
  by_cases hlt : n < len
  · by_cases h0 : (k.pipes pi).nreaders = 0
    · simp [hlt, h0, hzero]
    by_cases hspace : (k.pipes pi).space = 0
    · simp [hlt, h0, hspace, hzero]
    · have hput : (if (k.pipes pi).space < len - n then (k.pipes pi).space else len - n) =
          min (k.pipes pi).space (len - n) := by
        split <;> omega
      rw [if_pos hlt, if_neg h0, if_neg hspace, if_neg h0, isSome_map, isSome_map, hput]
      exact isSome_loadLoop
  · simp [hlt, show len - n = 0 by omega, hzero]

/-- **A write comes to its end** if its bytes can be loaded. -/
theorem isSome_sysWrite : (sysWrite k wb fd buf len).isSome ↔
    LoadReaches k.machine buf (writeLoads k wb fd len) := by
  have hzero := loadReaches_zero k.machine buf
  unfold sysWrite writeLoads
  dsimp only
  split
  · simp [hzero]
  split
  · rw [isSome_map]
    exact Kernel.isSome_pipeWriteOn
  split
  · rw [isSome_map, Kernel.fileWrite]
    split
    · simp [hzero]
    rcases hold : k.stageOld wb (k.current.fdTable fd).alfsIdx
      (k.current.fdTable fd).offset with ⟨b, wb', k'⟩
    have hmachine := k.stageOld_machine wb (k.current.fdTable fd).alfsIdx
      (k.current.fdTable fd).offset
    rw [hold] at hmachine
    cases b with
    | false => simp [hzero]
    | true =>
      dsimp only
      rw [isSome_map, hmachine]
      exact isSome_loadLoop
  split
  · rw [isSome_map]
    exact isSome_loadLoop
  · simp [hzero]

/-- A call that loads nothing and returns -1. -/
theorem write_refuses {k' : Kernel} (hloads : writeLoads k wb fd len = 0)
    (hrun : sysWrite k wb fd buf len = some (.returned (-1), wb, k')) (hsame : SameVars k k') :
    (PtrCall.write fd buf len).Refuses k cwd wb load := by
  refine ⟨?_, k', hrun, hsame⟩
  rintro a ⟨i, hi, -⟩
  omega

/-- A call that loads all its bytes. -/
theorem write_not_refuses (hout : ¬InUser buf len) (hloads : writeLoads k wb fd len = len) :
    ¬(PtrCall.write fd buf len).Refuses k cwd wb load := by
  rintro ⟨htouch, k', hrun, -⟩
  have hreach := isSome_sysWrite.mp (isSome_iff_exists.mpr ⟨_, hrun⟩)
  exact hout fun i hi => htouch _ ⟨i, by omega, rfl, fun j hj => hreach j (by omega)⟩

/-- A first turn on a pipe without readers. -/
theorem Kernel.pipeWriteOn_stopped {pi : Nat} (hlen : 0 < len) (h0 : (k.pipes pi).nreaders = 0) :
    k.pipeWriteOn pi buf len 0 = some (.returned (-1), k) := by
  simp [Kernel.pipeWriteOn, pipeWriteTurn, hlen, h0]

/-- On a pipe with readers the call is not over after its first turn. -/
theorem Kernel.pipeWriteOn_ne {pi : Nat} {v : Int} {k' : Kernel} (hlen : 0 < len)
    (h0 : (k.pipes pi).nreaders ≠ 0) : k.pipeWriteOn pi buf len 0 ≠ some (.returned v, k') := by
  rw [Kernel.pipeWriteOn, if_pos hlen, pipeWriteTurn, if_neg h0]
  split
  · simp
  · rw [Option.map_map]
    intro h
    obtain ⟨st, -, heq⟩ := map_eq_some_iff.mp h
    simp at heq

theorem write_refuses_iff (hout : ¬InUser buf len) :
    (PtrCall.write fd buf len).Refuses k cwd wb load ↔
      (PtrCall.write fd buf len).FailsFirst k wb := by
  have hlen : 0 < len := by
    by_contra h0
    exact hout fun i hi => by omega
  have hrun : sysWrite k wb fd buf len = sysWrite k wb fd buf len := rfl
  have hloads : writeLoads k wb fd len = writeLoads k wb fd len := rfl
  conv at hrun => rhs; unfold sysWrite
  conv at hloads => rhs; unfold writeLoads
  unfold PtrCall.FailsFirst
  dsimp only at hrun hloads ⊢
  by_cases hfd : fd ≥ taskFdMax
  · rw [if_pos hfd] at hrun hloads ⊢
    exact iff_of_true (write_refuses hloads hrun (.refl k)) trivial
  rw [if_neg hfd] at hrun hloads ⊢
  by_cases hpipe : ((k.current.fdTable fd).used && (k.current.fdTable fd).type == .pipe) = true
  · rw [if_pos hpipe] at hrun hloads ⊢
    by_cases h0 : (k.pipes (k.current.fdTable fd).pipeIdx).nreaders = 0
    · rw [if_pos h0] at hloads
      rw [Kernel.pipeWriteOn_stopped hlen h0] at hrun
      exact iff_of_true (write_refuses hloads hrun (.refl k)) h0
    · refine iff_of_false ?_ h0
      rintro ⟨-, k', hret, -⟩
      rw [PtrCall.run, hrun] at hret
      obtain ⟨r, hwrite, heq⟩ := map_eq_some_iff.mp hret
      simp only [Prod.mk.injEq, true_and] at heq
      exact Kernel.pipeWriteOn_ne hlen h0 (hwrite.trans (by rw [← heq.1]))
  rw [if_neg hpipe] at hrun hloads ⊢
  by_cases hfile : ((k.current.fdTable fd).used && (k.current.fdTable fd).type == .file) = true
  · rw [if_pos hfile] at hrun hloads ⊢
    by_cases htotal : ((k.current.fdTable fd).offset + len) % 2 ^ 32 > writeBufSize
    · rw [if_pos htotal] at hloads
      rw [Kernel.fileWrite, if_pos htotal] at hrun
      exact iff_of_true (write_refuses hloads hrun (.refl k)) (.inl htotal)
    rw [if_neg htotal] at hloads
    have hsame := k.sameVars_stageOld wb (k.current.fdTable fd).alfsIdx
      (k.current.fdTable fd).offset
    rcases hold : k.stageOld wb (k.current.fdTable fd).alfsIdx
      (k.current.fdTable fd).offset with ⟨b, wb', k'⟩
    rw [hold] at hloads hsame
    cases b with
    | false =>
      rw [Kernel.fileWrite_unread htotal hold] at hrun
      rw [or_iff_right htotal]
      constructor
      · rintro ⟨-, k', hret, -⟩
        rw [PtrCall.run, hrun] at hret
        exact ⟨rfl, congrArg (·.2.1) (some.inj hret)⟩
      · rintro ⟨-, rfl⟩
        exact write_refuses hloads hrun hsame
    | true =>
      refine iff_of_false (write_not_refuses hout hloads) ?_
      rintro (htotal' | ⟨hfalse, -⟩)
      · exact htotal htotal'
      · cases hfalse
  rw [if_neg hfile] at hrun hloads ⊢
  by_cases hscreen : fd = 1 ∨ fd = 2
  · rw [if_pos hscreen] at hrun hloads
    exact iff_of_false (write_not_refuses hout hloads) (by omega)
  · rw [if_neg hscreen] at hrun hloads
    exact iff_of_true (write_refuses hloads hrun (.refl k)) (by omega)

end

/-! ## the calls that take a name -/

theorem strInUser_of_touches {m : Machine} {p n : Nat}
    (h : ∀ a, (∃ i < n, a = (p + i) % 2 ^ 32 ∧ StrReaches m p i) → UserAddr a) : StrInUser m p n :=
  fun i hi hreach => h _ ⟨i, hi, rfl, hreach⟩

/-- A call that looks at the name once it has a descriptor. -/
theorem named_refuses_iff {c : PtrCall} {p n : Nat} (hout : ¬StrInUser k.machine p n)
    (htouches : ∀ a, c.Touches k wb a ↔ freeFd k.current.fdTable ≠ none ∧
      ∃ i < n, a = (p + i) % 2 ^ 32 ∧ StrReaches k.machine p i)
    (hrun : freeFd k.current.fdTable = none → c.run k cwd wb load = some (.returned (-1), wb, k)) :
    c.Refuses k cwd wb load ↔ freeFd k.current.fdTable = none := by
  by_cases hfd : freeFd k.current.fdTable = none
  · exact iff_of_true ⟨fun a ha => absurd hfd ((htouches a).mp ha).1, k, hrun hfd, .refl k⟩ hfd
  · refine iff_of_false ?_ hfd
    rintro ⟨htouch, -⟩
    exact hout (strInUser_of_touches fun a ha => htouch a ((htouches a).mpr ⟨hfd, ha⟩))

/-! ## the accesses are those of the call -/

/-- A call that is a storing one. -/
theorem stores_exact (u : UserCall) : ∃ p bs, ∃ finish : Machine → SysResult × Bytes × Kernel,
    (∀ m, (finish m).2.2.machine = m) ∧
    (u.run k).map (fun r => (r.1, wb, r.2)) = (storeBytes k.machine p bs).map finish ∧
    ∀ a, StoresTo k u a ↔ ∃ i < bs.length, a = (p + i) % 2 ^ 32 ∧
      (storeBytes k.machine p (bs.take i)).isSome = true := by
  obtain ⟨finish, hfin, heq⟩ := UserCall.run_eq k u
  exact ⟨_, _, fun m => ((finish m).1, wb, (finish m).2), hfin, by rw [heq, Option.map_map]; rfl,
    fun a => Iff.rfl⟩

theorem write_exact (fd buf len : Nat) : (PtrCall.write fd buf len).Exact k cwd wb load := by
  refine ⟨⟨fun hnone => ?_, ?_⟩, fun k' n hnone => ?_⟩
  · have hnot : ¬LoadReaches k.machine buf (writeLoads k wb fd len) := fun h => by
      have hsome := isSome_sysWrite.mpr h
      rw [show sysWrite k wb fd buf len = none from hnone] at hsome
      cases hsome
    obtain ⟨i, hi, hreach, hload⟩ := not_loadReaches hnot
    exact ⟨_, ⟨i, hi, rfl, hreach⟩, hload⟩
  · rintro ⟨a, ⟨i, hi, rfl, -⟩, hload⟩
    refine eq_none_iff_forall_ne_some.mpr fun r hrun => ?_
    have hsome := isSome_sysWrite.mp (isSome_iff_exists.mpr ⟨r, hrun⟩) i hi
    rw [hload] at hsome
    cases hsome
  · have hnot := Kernel.isSome_pipeWriteOn.not.mp (by rw [hnone]; exact Bool.false_ne_true)
    obtain ⟨i, hi, -, hload⟩ := not_loadReaches hnot
    exact ⟨_, ⟨i, Nat.lt_of_lt_of_le hi (by split <;> omega), rfl⟩, hload⟩

theorem strReaches_succ {m : Machine} {p i : Nat} : StrReaches m p (i + 1) ↔
    (∃ c, c ≠ 0 ∧ kload8 m (p % 2 ^ 32) = some c) ∧ StrReaches m (p + 1) i := by
  simp only [StrReaches, Nat.forall_lt_succ_left, Nat.add_zero, Nat.add_assoc, Nat.add_comm 1]

theorem loadStr_eq_none_iff {m : Machine} {p n : Nat} : loadStr m p n = none ↔
    ∃ i < n, StrReaches m p i ∧ kload8 m ((p + i) % 2 ^ 32) = none := by
  induction n generalizing p with
  | zero => simp [loadStr]
  | succ n ih =>
    have hnext : ∀ i, StrReaches m p (i + 1) ∧ kload8 m ((p + (i + 1)) % 2 ^ 32) = none ↔
        (∃ c, c ≠ 0 ∧ kload8 m (p % 2 ^ 32) = some c) ∧
          StrReaches m (p + 1) i ∧ kload8 m ((p + 1 + i) % 2 ^ 32) = none := fun i => by
      rw [strReaches_succ, and_assoc, Nat.add_assoc, Nat.add_comm 1]
    rw [loadStr, Nat.exists_lt_succ_left]
    simp only [hnext, Nat.add_zero]
    cases hload : kload8 m (p % 2 ^ 32) with
    | none => simp [StrReaches]
    | some c =>
      by_cases hc : c = 0
      · simp [hc]
      · simp [hc, ih]

/-- A call that reads the name at `p` once it has a descriptor. -/
theorem named_exact {c : PtrCall} {p : Nat} {finish : List UInt8 → SysResult × Bytes × Kernel}
    (htouches : ∀ a, c.Touches k wb a ↔ freeFd k.current.fdTable ≠ none ∧
      ∃ i < strMax, a = (p + i) % 2 ^ 32 ∧ StrReaches k.machine p i)
    (hrun : c.run k cwd wb load = if freeFd k.current.fdTable = none
      then some (.returned (-1), wb, k)
      else (loadStr k.machine p strMax).map finish) :
    c.run k cwd wb load = none ↔ ∃ a, c.Touches k wb a ∧ kload8 k.machine a = none := by
  rw [hrun]
  by_cases hfd : freeFd k.current.fdTable = none
  · simp [htouches, hfd]
  · rw [if_neg hfd, map_eq_none_iff, loadStr_eq_none_iff]
    constructor
    · rintro ⟨i, hi, hreach, hload⟩
      exact ⟨_, (htouches _).mpr ⟨hfd, i, hi, rfl, hreach⟩, hload⟩
    · rintro ⟨a, ha, hload⟩
      obtain ⟨-, i, hi, rfl, hreach⟩ := (htouches a).mp ha
      exact ⟨i, hi, hreach, hload⟩

theorem PtrCall.exact (c : PtrCall) : c.Exact k cwd wb load := by
  cases c with
  | read fd buf len => exact stores_exact (.read fd buf len)
  | wait p => exact stores_exact (.wait p)
  | pipe p => exact stores_exact (.pipe p)
  | write fd buf len => exact write_exact fd buf len
  | «open» p => exact named_exact (fun a => Iff.rfl) rfl
  | openW p append => exact named_exact (fun a => Iff.rfl) rfl
  | exec p =>
    refine map_eq_none_iff.trans (loadStr_eq_none_iff.trans ⟨?_, ?_⟩)
    · rintro ⟨i, hi, hreach, hload⟩
      exact ⟨_, ⟨i, hi, rfl, hreach⟩, hload⟩
    · rintro ⟨a, ⟨i, hi, rfl, hreach⟩, hload⟩
      exact ⟨i, hi, hreach, hload⟩

/-- **When a call keeps to the user range**: when its pointer does, or when it fails before
it uses the pointer. -/
theorem ptrCall_safe_iff (k : Kernel) (cwd : CStr) (wb : Bytes)
    (load : Kernel → CStr → Option Kernel) (c : PtrCall) : c.Exact k cwd wb load ∧
      (c.Safe k cwd wb load ↔ c.Inside k.machine ∨ c.FailsFirst k wb) := by
  refine ⟨c.exact, PtrCall.safe_iff fun hout => ?_⟩
  cases c with
  | read fd buf len => exact read_refuses_iff fd buf len
  | wait p => exact wait_refuses_iff p
  | pipe p => exact pipe_refuses_iff p
  | write fd buf len => exact write_refuses_iff hout
  | «open» p => exact named_refuses_iff hout (fun a => Iff.rfl) fun hfd => if_pos hfd
  | openW p append => exact named_refuses_iff hout (fun a => Iff.rfl) fun hfd => if_pos hfd
  | exec p =>
    refine iff_of_false ?_ id
    rintro ⟨htouch, -⟩
    exact hout (strInUser_of_touches htouch)

/-- A process with no file open. -/
def pointerKernel : Kernel :=
  let k := pairKernel (pairMachine 402) 0
  { k with
    pipes := fun _ => ⟨fun _ => 0, 0, 0, 0, 0⟩
    current := { k.current with fdTable := fun _ => ⟨false, .unset, 0, 0, 0, false⟩ } }

theorem pointerKernel_pipe : (sysPipe pointerKernel 0x10000).any (fun r =>
    (match r.1 with
      | .returned v => v == 0
      | .waiting _ => false) && word r.2.machine.mem 16 0 == 3) := by
  decide +kernel

/-- `sys_pipe(0x10000)`: the numbers of the descriptors go to the first entries of
`page_dir`. -/
theorem sysPipe_overwrites_pageDir : ∃ k', sysPipe pointerKernel 0x10000 = some (.returned 0, k') ∧
    word pointerKernel.machine.mem 16 0 = 256 * 4096 ||| 3 ∧ word k'.machine.mem 16 0 = 3 ∧
    ∀ cwd wb load, ¬(PtrCall.pipe 0x10000).Safe pointerKernel cwd wb load := by
  obtain ⟨⟨r, k'⟩, hrun, hr⟩ := (Option.any_eq_true _ _).mp pointerKernel_pipe
  simp only [Bool.and_eq_true, beq_iff_eq] at hr
  cases r with
  | waiting n => simp at hr
  | returned v =>
    obtain rfl : v = 0 := by simpa using hr.1
    refine ⟨k', hrun, word_pairMachine (by decide), hr.2, fun cwd wb load hsafe => ?_⟩
    have hout : ¬InUser 0x10000 8 := fun hin => absurd (hin 0 (by decide)) (by decide)
    obtain ⟨k₁, hret, -⟩ := hsafe.refuses hout
    simp [PtrCall.run, hrun] at hret

end

end AliOS
