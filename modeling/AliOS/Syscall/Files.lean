import AliOS.Alfs.Slots
import AliOS.Sched.Queue
import AliOS.Syscall

/-!
# AliOS.Syscall.Files

The system calls that open, write and close descriptors (`kernel/syscall.c`).  A call runs
with interrupts disabled, except that the loops of `pipe_read` and `pipe_write` enable
them at the end of each turn: a turn that does not end the call leaves it waiting.

`write_buf` is static, so what a call leaves in it is there in the next.  A name that
fills its directory entry has no terminator; it is taken to end with the entry.
-/

namespace AliOS

open Lib Function Option

/-! ## closing -/

def Kernel.fdCloseOne (k : Kernel) (i : Nat) : Kernel :=
  let f := k.current.fdTable i
  if !f.used then k
  else
    let k := k.setFd i { f with used := false }
    if f.type == .pipe then { k with pipes := f.closeEnd k.pipes } else k

def sysClose (k : Kernel) (fd : Int) : Int × Kernel :=
  if fd < 0 ∨ fd ≥ taskFdMax then (-1, k)
  else if !(k.current.fdTable fd.toNat).used then (-1, k)
  else (0, k.fdCloseOne fd.toNat)

/-- The loop of `sys_exec` that closes the descriptors from 3 on. -/
def Kernel.execClose (k : Kernel) : Kernel :=
  forRange (fun i k => k.fdCloseOne i) 3 (taskFdMax - 3) k

/-! ## opening -/

/-- The first unused descriptor, not below 3. -/
def freeFd (fdTable : Nat → TaskFd) : Option Nat :=
  (List.range' 3 (taskFdMax - 3)).find? fun i => !(fdTable i).used

/-- The descriptor `fd` stands for the file in slot `idx`, from `offset` on. -/
def Kernel.openFile (k : Kernel) (fd : Nat) (idx : Int) (offset : Nat) : Kernel :=
  k.setFd fd
    { k.current.fdTable fd with used := true, type := .file, alfsIdx := idx, offset := offset }

/-- `sys_open` in a task with the working directory `cwd`. -/
def sysOpen (k : Kernel) (cwd name : CStr) : Int × Kernel :=
  match freeFd k.current.fdTable with
  | none => (-1, k)
  | some fd =>
    let idx := alfsFind k.fs (some (pathResolve cwd name))
    if idx < 0 ∨ alfsIsDir k.fs idx then (-1, k) else (fd, k.openFile fd idx 0)

/-- The file `resolved` before `sys_open_w` opens it, and the offset to start from: the
end of an old file to append to, otherwise the file is made empty. -/
def prepareWrite (fs : Fs) (resolved : CStr) (append : Bool) : Option Nat × Fs :=
  let idx := alfsFind fs (some resolved)
  if append ∧ idx ≥ 0 then (some (alfsSize fs idx), fs)
  else
    let res := alfsWrite fs (some resolved) (some fun _ => 0) 0
    (if res.1 < 0 then none else some 0, res.2)

def sysOpenW (k : Kernel) (cwd uname : CStr) (append : Bool) : Int × Kernel :=
  match freeFd k.current.fdTable with
  | none => (-1, k)
  | some fd =>
    let resolved := pathResolve cwd uname
    let res := prepareWrite k.fs resolved append
    let k := { k with fs := res.2 }
    match res.1 with
    | none => (-1, k)
    | some startOff =>
      let idx := alfsFind k.fs (some resolved)
      if idx < 0 then (-1, k) else (fd, k.openFile fd idx startOff)

/-! ## writing -/

def writeBufSize : Nat := 4096

/-- The start of `file_write`: what the file holds before `off` goes into `write_buf`. -/
def Kernel.stageOld (k : Kernel) (writeBuf : Bytes) (idx : Int) (off : Nat) :
    Bool × Bytes × Kernel :=
  if off > 0 then
    let res := alfsPread k.fs idx off 0
    (decide (res.1.1 ≥ 0), blit writeBuf 0 res.1.2.length fun i => res.1.2.getD i 0,
      { k with fs := res.2 })
  else (true, writeBuf, k)

/-- The loop of `file_write`: `write_buf[off + i] = buf[i]`. -/
def stageNew (m : Machine) (buf off len : Nat) (writeBuf : Bytes) : Option Bytes :=
  forRangeM (fun i wb => (kload8 m ((buf + i) % 2 ^ 32)).map (update wb ((off + i) % 2 ^ 32)))
    0 len writeBuf

/-- The end of `file_write`: the file is written again, with `total` bytes. -/
def Kernel.storeFile (k : Kernel) (writeBuf : Bytes) (fd : Nat) (total len : Nat) : Int × Kernel :=
  let f := k.current.fdTable fd
  match alfsStat k.fs f.alfsIdx with
  | none => (-1, k)
  | some (bytes, _) =>
    let name := CStr.ofBytes bytes
    let res := alfsWrite k.fs (some name) (some writeBuf) total
    let k := { k with fs := res.2 }
    if res.1 < 0 then (-1, k)
    else (asInt len, k.setFd fd
      { f with alfsIdx := alfsFind k.fs (some name), offset := (f.offset + len) % 2 ^ 32 })

/-- `file_write`; the result, `write_buf` and the state. -/
def Kernel.fileWrite (k : Kernel) (writeBuf : Bytes) (fd buf len : Nat) :
    Option (Int × Bytes × Kernel) :=
  let f := k.current.fdTable fd
  let total := (f.offset + len) % 2 ^ 32
  if total > writeBufSize then some (-1, writeBuf, k)
  else
    match k.stageOld writeBuf f.alfsIdx f.offset with
    | (false, writeBuf, k) => some (-1, writeBuf, k)
    | (true, writeBuf, k) =>
      (stageNew k.machine buf f.offset len writeBuf).map fun writeBuf =>
        let res := k.storeFile writeBuf fd total len
        (res.1, writeBuf, res.2)

/-- A turn of `pipe_write` as a part of `sys_write`, with `n` bytes accepted. -/
def Kernel.pipeWriteOn (k : Kernel) (pi buf len n : Nat) : Option (SysResult × Kernel) :=
  if n < len then
    (pipeWriteTurn buf len n (k.pipes pi) k.machine).map fun r =>
      (match r.1 with
        | .stopped => .returned (-1)
        | .yielded => .waiting n
        | .moved bytes => .waiting (n + bytes.length),
        { k with pipes := update k.pipes pi r.2 })
  else some (.returned (asInt n), k)

/-- A turn of `pipe_read` as a part of `sys_read`, with `n` bytes delivered. -/
def Kernel.pipeReadOn (k : Kernel) (pi buf len n : Nat) : Option (SysResult × Kernel) :=
  if n < len then
    (pipeReadTurn buf len n (k.pipes pi) k.machine).map fun r =>
      (match r.1 with
        | .stopped => .returned (asInt n)
        | .yielded => .waiting n
        | .moved bytes => .waiting (n + bytes.length),
        { k with pipes := update k.pipes pi r.2.1, machine := r.2.2 })
  else some (.returned (asInt n), k)

/-- The loop that writes to the screen. -/
def putChars (m : Machine) (buf len : Nat) : Option (List UInt8) :=
  forRangeM (fun i cs => (kload8 m ((buf + i) % 2 ^ 32)).map fun c => cs ++ [c]) 0 len []

/-- `sys_write`; the result, `write_buf` and the state. -/
def sysWrite (k : Kernel) (writeBuf : Bytes) (fd buf len : Nat) :
    Option (SysResult × Bytes × Kernel) :=
  if fd ≥ taskFdMax then some (.returned (-1), writeBuf, k)
  else
    let f := k.current.fdTable fd
    if f.used && f.type == .pipe then
      (k.pipeWriteOn f.pipeIdx buf len 0).map fun r => (r.1, writeBuf, r.2)
    else if f.used && f.type == .file then
      (k.fileWrite writeBuf fd buf len).map fun r => (.returned r.1, r.2)
    else if fd = 1 ∨ fd = 2 then
      (putChars k.machine buf len).map fun _ => (.returned (asInt len), writeBuf, k)
    else some (.returned (-1), writeBuf, k)

/-! ## file_write in parts -/

/-- The state after a part of a call that reads from the disk only. -/
structure Kernel.Staged (k k' : Kernel) : Prop where
  current : k'.current = k.current
  pipes : k'.pipes = k.pipes
  ready : k'.fs.ready = k.fs.ready
  dir : k'.fs.dir = k.fs.dir

theorem Kernel.Staged.refl (k : Kernel) : k.Staged k := ⟨rfl, rfl, rfl, rfl⟩

theorem Kernel.staged_stageOld (k : Kernel) (writeBuf : Bytes) (idx : Int) (off : Nat) :
    k.Staged (k.stageOld writeBuf idx off).2.2 := by
  unfold Kernel.stageOld
  split
  · have hframe := alfsPread_frame k.fs idx off 0
    exact ⟨rfl, rfl, hframe.1, hframe.2⟩
  · exact .refl k

/-- `file_write` fails before it has written anything, or ends as `storeFile` does. -/
theorem Kernel.fileWrite_cases {k : Kernel} {writeBuf : Bytes} {fd buf len : Nat}
    {r : Int × Bytes × Kernel} (h : k.fileWrite writeBuf fd buf len = some r) :
    r.1 = -1 ∧ k.Staged r.2.2 ∨ ∃ k₁ wb total, k.Staged k₁ ∧ total < 2 ^ 32 ∧
      r = ((k₁.storeFile wb fd total len).1, wb, (k₁.storeFile wb fd total len).2) := by
  have hstaged := k.staged_stageOld writeBuf (k.current.fdTable fd).alfsIdx
    (k.current.fdTable fd).offset
  unfold Kernel.fileWrite at h
  dsimp only at h
  split at h
  · cases h
    exact .inl ⟨rfl, .refl k⟩
  · split at h <;> rename_i wb k₁ heq <;> rw [heq] at hstaged
    · cases h
      exact .inl ⟨rfl, hstaged⟩
    · obtain ⟨wb', -, rfl⟩ := map_eq_some_iff.mp h
      exact .inr ⟨k₁, wb', _, hstaged, by omega, rfl⟩

/-- `sys_write` leaves the kernel as it is, or ends as the call for a pipe or the one for a
file does. -/
theorem sysWrite_cases {k : Kernel} {writeBuf : Bytes} {fd buf len : Nat}
    {r : SysResult × Bytes × Kernel} (h : sysWrite k writeBuf fd buf len = some r) :
    r.2.2 = k ∨
      (∃ x, k.pipeWriteOn (k.current.fdTable fd).pipeIdx buf len 0 = some x ∧ r.2.2 = x.2) ∨
      fd < taskFdMax ∧ ((k.current.fdTable fd).used && (k.current.fdTable fd).type == .file) ∧
        ∃ x, k.fileWrite writeBuf fd buf len = some x ∧ r.2.2 = x.2.2 := by
  unfold sysWrite at h
  dsimp only at h
  split at h
  · cases h
    exact .inl rfl
  split at h
  · obtain ⟨x, hwrite, rfl⟩ := map_eq_some_iff.mp h
    exact .inr (.inl ⟨x, hwrite, rfl⟩)
  split at h
  · rename_i hfile
    obtain ⟨x, hwrite, rfl⟩ := map_eq_some_iff.mp h
    exact .inr (.inr ⟨by omega, hfile, x, hwrite, rfl⟩)
  split at h
  · obtain ⟨x, -, rfl⟩ := map_eq_some_iff.mp h
    exact .inl rfl
  · cases h
    exact .inl rfl

/-- An open descriptor of a file. -/
def TaskFd.isFile (f : TaskFd) : Bool := f.used && f.type == .file

section

variable {k : Kernel} {fd : Nat}

/-- The read of a file. -/
theorem sysRead_file (hfd : fd < taskFdMax) (hf : (k.current.fdTable fd).isFile) (buf len : Nat) :
    sysRead k fd buf len = k.fileRead fd buf len := by
  simp only [TaskFd.isFile, Bool.and_eq_true, beq_iff_eq] at hf
  unfold sysRead
  rw [if_neg (by omega)]
  simp [hf]

/-- The write to a file. -/
theorem sysWrite_file (hfd : fd < taskFdMax) (hf : (k.current.fdTable fd).isFile)
    (writeBuf : Bytes) (buf len : Nat) : sysWrite k writeBuf fd buf len =
      (k.fileWrite writeBuf fd buf len).map fun r => (.returned r.1, r.2) := by
  simp only [TaskFd.isFile, Bool.and_eq_true, beq_iff_eq] at hf
  have hin : ¬fd ≥ taskFdMax := by omega
  simp [sysWrite, hin, hf]

end

/-! ## calls that leave the directory alone -/

section

variable {k : Kernel} {pi buf len n : Nat} {r : SysResult × Kernel}

theorem sysOpen_fs (k : Kernel) (cwd name : CStr) : (sysOpen k cwd name).2.fs = k.fs := by
  unfold sysOpen
  split
  · rfl
  · dsimp only
    split <;> rfl

theorem Kernel.fdCloseOne_fs (k : Kernel) (i : Nat) : (k.fdCloseOne i).fs = k.fs := by
  unfold Kernel.fdCloseOne
  dsimp only
  split
  · rfl
  · split <;> rfl

theorem Kernel.execClose_fs (k : Kernel) : k.execClose.fs = k.fs :=
  forRange_induct (fun _ (k' : Kernel) => k'.fs = k.fs) rfl fun i k' _ _ hk =>
    (k'.fdCloseOne_fs i).trans hk

theorem sysClose_fs (k : Kernel) (fd : Int) : (sysClose k fd).2.fs = k.fs := by
  unfold sysClose
  split
  · rfl
  · split
    · rfl
    · exact k.fdCloseOne_fs _

theorem Kernel.pipeReadOn_fs (h : k.pipeReadOn pi buf len n = some r) : r.2.fs = k.fs := by
  unfold Kernel.pipeReadOn at h
  split at h
  · obtain ⟨x, -, rfl⟩ := map_eq_some_iff.mp h
    rfl
  · cases h
    rfl

theorem Kernel.pipeWriteOn_fs (h : k.pipeWriteOn pi buf len n = some r) : r.2.fs = k.fs := by
  unfold Kernel.pipeWriteOn at h
  split at h
  · obtain ⟨x, -, rfl⟩ := map_eq_some_iff.mp h
    rfl
  · cases h
    rfl

theorem sysRead_dir {fd : Int} (h : sysRead k fd buf len = some r) : r.2.fs.dir = k.fs.dir := by
  unfold sysRead at h
  split at h
  · cases h
    rfl
  dsimp only at h
  split at h
  · obtain ⟨x, -, rfl⟩ := map_eq_some_iff.mp h
    rfl
  split at h
  · obtain ⟨m, -, rfl⟩ := map_eq_some_iff.mp h
    split <;> exact (alfsPread_frame k.fs _ _ _).2
  · cases h
    rfl

theorem sysPipe_fs {userFds : Nat} (h : sysPipe k userFds = some r) : r.2.fs = k.fs := by
  unfold sysPipe at h
  split at h
  · cases h
    rfl
  split at h
  · obtain ⟨m, -, hm⟩ := bind_eq_some_iff.mp h
    obtain ⟨m', -, rfl⟩ := map_eq_some_iff.mp hm
    rfl
  · cases h
    rfl

end

end AliOS
