import AliOS.System.Append

/-!
# AliOS.System.Reading

Reading files: `alfs_pread`, `alfs_read`, and calls of `sys_read` one after the other.  The
readers deliver the bytes of the file, as long as these lie in sectors that have a number of
28 bits and are few enough for their count to be an `int`; neither the loader of the
directory nor the readers look at that.
-/

namespace AliOS

open Lib List

/-! ## what a file is -/

/-- Byte `k` of the file in entry `i`: a byte of the sector `start + k / 512`, if there is such
a sector.  The drive is addressed with 28 bits. -/
def fileByte (fs : Fs) (i k : Nat) : Option UInt8 :=
  if entryStart fs.dir i + k / 512 < 2 ^ 28 then
    some (fs.disk.data (512 * (entryStart fs.dir i + k / 512) + k % 512))
  else none

/-- `alfs_pread` returns how many bytes there are from `off` on, up to `len`, and stores these
bytes. -/
structure PreadExact (fs : Fs) (i len off : Nat) : Prop where
  result : (alfsPread fs i len off).1.1 = (min len (entrySize fs.dir i - off) : Nat)
  length : (alfsPread fs i len off).1.2.length = min len (entrySize fs.dir i - off)
  bytes : ∀ j b, (alfsPread fs i len off).1.2[j]? = some b → fileByte fs i (off + j) = some b

/-- `alfs_read` does the same as `alfs_pread` from the start. -/
def ReadAgrees (fs : Fs) (i max : Nat) : Prop :=
  ∃ bytes, alfsRead fs i max = (some bytes, fs) ∧
    alfsPread fs i max 0 = ((asInt bytes.length, bytes), fs)

/-- The bytes of the file can be read. -/
structure Readable (fs : Fs) (i : Nat) : Prop where
  size : entrySize fs.dir i < 2 ^ 31
  sectors : entrySize fs.dir i = 0 ∨ entryStart fs.dir i + sectorsOf (entrySize fs.dir i) ≤ 2 ^ 28

/-- Entry `i` is in use, and no transfer fails. -/
structure QuietEntry (fs : Fs) (i : Nat) : Prop where
  ready : fs.ready = true
  lt : i < alfsMaxFiles
  used : entryUsed fs.dir i = true
  script : fs.disk.script = []

section

variable {fs : Fs} {i : Nat}

theorem fileBytes_drop_take (fs : Fs) (i len off : Nat) : ((fileBytes fs i).drop off).take len =
    slice fs.disk.data (512 * entryStart fs.dir i + off) (min len (entrySize fs.dir i - off)) := by
  by_cases hoff : off ≤ entrySize fs.dir i
  · have hle : off + min len (entrySize fs.dir i - off) ≤ entrySize fs.dir i := by omega
    rw [← slice_drop_take hle, ← fileBytes, take_eq_take_iff]
    simp [fileBytes]
  · rw [drop_eq_nil_of_le (by simp [fileBytes]; omega), show entrySize fs.dir i - off = 0 by omega]
    simp [slice]

/-- The three numbers in a read of a readable file. -/
theorem Readable.alfsPread (h : Readable fs i) (hq : QuietEntry fs i) (len off : Nat) :
    alfsPread fs i len off =
      ((((min len (entrySize fs.dir i - off) : Nat) : Int), ((fileBytes fs i).drop off).take len),
        fs) := by
  have hsize := h.size
  have hint : asInt (min len (entrySize fs.dir i - off)) =
      (min len (entrySize fs.dir i - off) : Nat) :=
    if_pos (by omega)
  rw [fileBytes_drop_take]
  obtain h0 | hsect := h.sectors
  · -- an empty file is not looked for on the disk
    rw [alfsPread_eq, if_pos (Fs.has_natCast hq.ready hq.lt hq.used)]
    simp [h0, slice, preadLoop, asInt]
  · rw [alfsPread_quiet fs hq.script hq.ready hq.lt hq.used hsect, hint]

theorem Readable.preadExact (h : Readable fs i) (hq : QuietEntry fs i) (len off : Nat) :
    PreadExact fs i len off := by
  have hread := h.alfsPread hq len off
  rw [fileBytes_drop_take] at hread
  refine ⟨by rw [hread], by rw [hread, length_slice], fun j b hb => ?_⟩
  rw [hread] at hb
  obtain ⟨hj, rfl⟩ := List.getElem?_eq_some_iff.mp hb
  rw [length_slice] at hj
  have hsect : entryStart fs.dir i + (off + j) / 512 < 2 ^ 28 := by
    have hor := h.sectors
    unfold sectorsOf at hor
    omega
  unfold fileByte
  rw [if_pos hsect, show 512 * (entryStart fs.dir i + (off + j) / 512) + (off + j) % 512 =
    512 * entryStart fs.dir i + off + j by omega]
  simp [slice]

theorem Readable.readAgrees (h : Readable fs i) (hq : QuietEntry fs i) (max : Nat) :
    ReadAgrees fs i max := by
  have hread := h.alfsPread hq max 0
  rw [fileBytes_drop_take, Nat.add_zero, Nat.sub_zero] at hread
  have hsize := h.size
  refine ⟨slice fs.disk.data (512 * entryStart fs.dir i) (min max (entrySize fs.dir i)), ?_, ?_⟩
  · rw [Nat.min_comm]
    obtain h0 | hsect := h.sectors
    · rw [alfsRead_empty fs hq.ready hq.lt hq.used h0, h0, Nat.zero_min]
      rfl
    · exact alfsRead_quiet fs hq.script hq.ready hq.lt hq.used hsect max
  · rw [hread, length_slice, asInt, if_pos (by omega)]

/-- Only a readable file is read right. -/
theorem readable_of_preadExact (h : ∀ len off, len < 2 ^ 32 → off < 2 ^ 32 →
    PreadExact fs i len off) :
    Readable fs i := by
  have hsize := load32_lt fs.dir (64 * i + 56)
  change entrySize fs.dir i < 2 ^ 32 at hsize
  have hall := h (entrySize fs.dir i) 0 hsize (by decide)
  have hlen := hall.length
  have hbytes := hall.bytes
  have hresult := hall.result
  refine ⟨?_, ?_⟩
  · by_contra hlarge
    -- the count of 2^31 bytes or more is negative as an `int`
    have hint : (alfsPread fs i (entrySize fs.dir i) 0).1.1 ≤ 0 := by
      unfold alfsPread asInt
      dsimp only
      rw [Int.toNat_natCast, Nat.sub_zero, if_neg (Nat.lt_irrefl _),
        if_neg (by omega : ¬entrySize fs.dir i < 2 ^ 31)]
      split_ifs <;> dsimp only <;> omega
    omega
  · by_cases h0 : entrySize fs.dir i = 0
    · exact .inl h0
    · -- the last byte has a sector
      have hlast : entrySize fs.dir i - 1 <
          (alfsPread fs i (entrySize fs.dir i) 0).1.2.length := by omega
      have hbyte := hbytes _ _ (List.getElem?_eq_getElem hlast)
      unfold fileByte at hbyte
      split at hbyte
      · unfold sectorsOf
        omega
      · cases hbyte

end

/-! ## calls of sys_read -/

/-- The descriptor `fd` of the running task stands for the file in entry `i`. -/
structure OpenFor (k : Kernel) (fd i : Nat) : Prop where
  lt : fd < taskFdMax
  used : (k.current.fdTable fd).used = true
  type : (k.current.fdTable fd).type = .file
  idx : (k.current.fdTable fd).alfsIdx = i

/-- The bytes a call of `sys_read` stores into its buffer. -/
def Kernel.delivered (k : Kernel) (fd len : Nat) : List UInt8 :=
  (alfsPread k.fs (k.current.fdTable fd).alfsIdx len (k.current.fdTable fd).offset).1.2

/-- What happens between two calls leaves the descriptor and the file as they are. -/
structure SameFile (fd i : Nat) (k k' : Kernel) : Prop where
  fd : k'.current.fdTable fd = k.current.fdTable fd
  quiet : QuietEntry k'.fs i
  start : entryStart k'.fs.dir i = entryStart k.fs.dir i
  size : entrySize k'.fs.dir i = entrySize k.fs.dir i
  bytes : fileBytes k'.fs i = fileBytes k.fs i

/-- Calls of `sys_read` on one descriptor, with the bytes they have delivered. -/
inductive ReadRun (fd i : Nat) (k₀ : Kernel) : Kernel → List UInt8 → Prop where
  | start : ReadRun fd i k₀ k₀ []
  | idle {k k' : Kernel} {out : List UInt8} : ReadRun fd i k₀ k out → SameFile fd i k k' →
      ReadRun fd i k₀ k' out
  | read {k k' : Kernel} {out : List UInt8} (buf len : Nat) (v : Int) :
      ReadRun fd i k₀ k out → len < 2 ^ 32 → sysRead k fd buf len = some (.returned v, k') →
      ReadRun fd i k₀ k' (out ++ k.delivered fd len)

/-- The next call after `out` has been delivered: it stores and counts the bytes that come next
in the file, and there are none only at the end. -/
structure ReadsOn (file out : List UInt8) (k : Kernel) (fd buf len : Nat) (v : Int)
    (k' : Kernel) : Prop where
  stored : storeBytes k.machine buf (k.delivered fd len) = some k'.machine
  result : v = (k.delivered fd len).length
  bytes : out ++ k.delivered fd len <+: file
  ends : v = 0 → len = 0 ∨ out = file

/-- A series of calls from a fresh descriptor delivers the file from its start. -/
def ReadsInOrder (fs : Fs) (i : Nat) : Prop :=
  ∀ k₀ fd, k₀.fs = fs → OpenFor k₀ fd i → (k₀.current.fdTable fd).offset = 0 →
    ∀ k out, ReadRun fd i k₀ k out →
    out <+: fileBytes fs i ∧ ∀ buf len v k', len < 2 ^ 32 →
      sysRead k fd buf len = some (.returned v, k') →
      ReadsOn (fileBytes fs i) out k fd buf len v k'

section

variable {fs : Fs} {fd i : Nat} {k k' : Kernel} {out : List UInt8}

theorem Kernel.setFd_self (k : Kernel) (fd : Nat) (f : TaskFd) :
    (k.setFd fd f).current.fdTable fd = f :=
  Function.update_self ..

/-- The state between two calls, when `out` has been delivered of the file in `fs`. -/
structure Between (fs : Fs) (fd i : Nat) (k : Kernel) (out : List UInt8) : Prop where
  open_ : OpenFor k fd i
  quiet : QuietEntry k.fs i
  start : entryStart k.fs.dir i = entryStart fs.dir i
  size : entrySize k.fs.dir i = entrySize fs.dir i
  bytes : fileBytes k.fs i = fileBytes fs i
  offset : (k.current.fdTable fd).offset = out.length
  pre : out <+: fileBytes fs i

theorem Between.idle (h : Between fs fd i k out) (hs : SameFile fd i k k') :
    Between fs fd i k' out where
  open_ := ⟨h.open_.lt, by rw [hs.fd]; exact h.open_.used, by rw [hs.fd]; exact h.open_.type,
    by rw [hs.fd]; exact h.open_.idx⟩
  quiet := hs.quiet
  start := hs.start.trans h.start
  size := hs.size.trans h.size
  bytes := hs.bytes.trans h.bytes
  offset := by rw [hs.fd]; exact h.offset
  pre := h.pre

/-- A call on a descriptor for a file. -/
theorem OpenFor.sysRead (h : OpenFor k fd i) (buf len : Nat) :
    sysRead k fd buf len = k.fileRead fd buf len := by
  rw [sysRead_file h.lt]
  simp [TaskFd.isFile, h.used, h.type]

theorem Between.sysRead (h : Between fs fd i k out) (hr : Readable fs i) {buf len : Nat} {v : Int}
    (hcall : sysRead k fd buf len = some (.returned v, k')) :
    ReadsOn (fileBytes fs i) out k fd buf len v k' ∧
      Between fs fd i k' (out ++ k.delivered fd len) := by
  have hread : Readable k.fs i := by
    refine ⟨?_, ?_⟩
    · rw [h.size]
      exact hr.size
    · rw [h.size, h.start]
      exact hr.sectors
  obtain ⟨rest, hrest⟩ := h.pre
  have hpread := hread.alfsPread h.quiet len out.length
  rw [h.bytes, ← hrest, drop_left, h.size] at hpread
  have hlen : (rest.take len).length = min len (entrySize fs.dir i - out.length) := by
    have htotal := congrArg List.length hrest
    rw [length_append, fileBytes, length_slice] at htotal
    rw [length_take]
    omega
  have hdel : k.delivered fd len = rest.take len := by
    unfold Kernel.delivered
    rw [h.open_.idx, h.offset, hpread]
  rw [h.open_.sysRead] at hcall
  unfold Kernel.fileRead at hcall
  dsimp only at hcall
  rw [h.open_.idx, h.offset, hpread] at hcall
  obtain ⟨m, hm, heq⟩ := Option.map_eq_some_iff.mp hcall
  rw [← hlen] at heq
  obtain ⟨hres, hk⟩ := Prod.mk.inj heq
  have hv : v = ((rest.take len).length : Nat) := (SysResult.returned.inj hres).symm
  have hfits : out.length + (rest.take len).length < 2 ^ 32 := by
    have hsize := hr.size
    have htotal := congrArg List.length hrest
    rw [length_append, fileBytes, length_slice] at htotal
    rw [length_take]
    omega
  have hk' : k'.machine = m ∧ k'.fs = k.fs ∧
      (k'.current.fdTable fd).offset = (out ++ rest.take len).length ∧
      OpenFor k' fd i := by
    rw [← hk, length_append]
    by_cases hpos : ((rest.take len).length : Int) > 0
    · rw [if_pos hpos, Int.toNat_natCast, Nat.mod_eq_of_lt hfits]
      refine ⟨rfl, rfl, ?_, h.open_.lt, ?_, ?_, ?_⟩ <;> rw [Kernel.setFd_self]
      · exact h.open_.used
      · exact h.open_.type
    · rw [if_neg hpos, show (rest.take len).length = 0 by omega]
      exact ⟨rfl, rfl, h.offset, h.open_.lt, h.open_.used, h.open_.type, h.open_.idx⟩
  obtain ⟨hmach, hfs, hoff, hopen⟩ := hk'
  rw [hdel]
  have hpre : out ++ rest.take len <+: fileBytes fs i := by
    rw [← hrest]
    exact (prefix_append_right_inj out).mpr (List.take_prefix len rest)
  refine ⟨⟨by rw [hdel, hmach]; exact hm, by rw [hdel]; exact hv, by rw [hdel]; exact hpre,
    fun h0 => ?_⟩, hopen, hfs ▸ h.quiet, hfs ▸ h.start, hfs ▸ h.size, hfs ▸ h.bytes, hoff, hpre⟩
  -- nothing was delivered: nothing was asked for, or nothing is left
  have hnil : (rest.take len).length = 0 := by omega
  rw [length_take] at hnil
  by_cases hz : len = 0
  · exact .inl hz
  · refine .inr ?_
    rw [← hrest, eq_nil_of_length_eq_zero (show rest.length = 0 by omega), append_nil]

theorem ReadRun.between {k₀ : Kernel} (hr : Readable k₀.fs i) (h0 : Between k₀.fs fd i k₀ [])
    (hrun : ReadRun fd i k₀ k out) : Between k₀.fs fd i k out := by
  induction hrun with
  | start => exact h0
  | idle _ hs ih => exact ih.idle hs
  | read buf len v _ _ hcall ih => exact (ih.sysRead hr hcall).2

/-- **Reading a file**: `alfs_pread` delivers every slice, `alfs_read` agrees with it, and calls
of `sys_read` deliver the file from its start, exactly if the file is readable. -/
theorem reads_exactly_iff (hq : QuietEntry fs i) :
    ((∀ len off, len < 2 ^ 32 → off < 2 ^ 32 → PreadExact fs i len off) ∧
      (∀ max, max < 2 ^ 32 → ReadAgrees fs i max) ∧ ReadsInOrder fs i) ↔ Readable fs i := by
  constructor
  · exact fun h => readable_of_preadExact h.1
  · intro hr
    refine ⟨fun len off _ _ => hr.preadExact hq len off, fun max _ => hr.readAgrees hq max, ?_⟩
    rintro k₀ fd rfl hopen hoff k out hrun
    have h0 : Between k₀.fs fd i k₀ [] := ⟨hopen, hq, rfl, rfl, rfl, hoff, nil_prefix⟩
    have hbetween := hrun.between hr h0
    exact ⟨hbetween.pre, fun buf len v k' _ hcall => (hbetween.sysRead hr hcall).1⟩

end

/-! ## a file in sector 2^28 -/

theorem reads_exactly_dirA :
    (∀ len off, len < 2 ^ 32 → off < 2 ^ 32 → PreadExact (blankFs dirA) 0 len off) ∧
    (∀ max, max < 2 ^ 32 → ReadAgrees (blankFs dirA) 0 max) ∧ ReadsInOrder (blankFs dirA) 0 :=
  (reads_exactly_iff ⟨rfl, by decide, by decide +kernel, rfl⟩).mpr ⟨by decide +kernel,
    .inr (by decide +kernel)⟩

/-- "/a" is one byte in sector 2^28; the disk has the superblock in sector 0. -/
def farFs : Fs where
  ready := true
  super := wordBytes alfsMagic
  dir := setEntry (fun _ => 0) 0 pathA (2 ^ 28) 1 alfsFlagUsed
  disk := ⟨blit (fun _ => 0) 0 4 (wordBytes alfsMagic), []⟩

/-- The byte delivered is the first one of the superblock. -/
theorem alfsPread_reads_super : (alfsPread farFs 0 1 0).1 = (1, [0x53]) ∧
    fileByte farFs 0 0 = none ∧
    ¬PreadExact farFs 0 1 0 := by
  have hread : (alfsPread farFs 0 1 0).1 = (1, [0x53]) := by decide +kernel
  have hnone : fileByte farFs 0 0 = none := by decide +kernel
  refine ⟨hread, hnone, fun h => ?_⟩
  have hbyte :=
    h.bytes 0 0x53 (by rw [show (alfsPread farFs ((0 : Nat) : Int) 1 0).1 = _ from hread]; rfl)
  cases hbyte

end AliOS
