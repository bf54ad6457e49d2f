import AliOS.System.Reading

/-!
# AliOS.System.Writing

One descriptor of `sys_open_w` and the writes through it, one after the other.  Each
`file_write` reads the file up to the offset of the descriptor into `write_buf`, adds the new
bytes and writes the whole file again, into a new extent behind all others, with the offset
always at the end of the file.  So the file grows by what is written, as long as it fits
into `write_buf` and the new extents have sector numbers of 28 bits.
-/

namespace AliOS

open Lib List

/-! ## opening -/

/-- What `sys_open_w` relies on: the name fits its field, and the sectors of an old file to
append to and the eight sectors behind the other files have numbers of 28 bits. -/
structure OpenReady (fs : Fs) (n : CStr) (append : Bool) : Prop where
  short : n.length < alfsNameMax
  extent : append = true → ∀ i, findEntry fs.dir n = some i →
    entryStart fs.dir i + sectorsOf (entrySize fs.dir i) ≤ 2 ^ 28
  room : ∀ slot base, Chosen fs.dir n slot base → highWater base + sectorsOf writeBufSize ≤ 2 ^ 28

/-- What the writes are added to. -/
def writeBase (fs : Fs) (n : CStr) (append : Bool) : List UInt8 :=
  if append then (contents fs n).getD [] else []

/-- The descriptor `fd` stands at the end of the file `n` in entry `i`, which holds `content`. -/
structure AtEnd (n : CStr) (fd i : Nat) (k : Kernel) (content : List UInt8) : Prop where
  open_ : OpenFor k fd i
  ready : k.fs.ready = true
  short : n.length < alfsNameMax
  found : findEntry k.fs.dir n = some i
  file : entryDir k.fs.dir i = false
  extent : entryStart k.fs.dir i + sectorsOf (entrySize k.fs.dir i) ≤ 2 ^ 28
  bytes : fileBytes k.fs i = content
  offset : (k.current.fdTable fd).offset = content.length

section

variable {n : CStr} {fd i : Nat} {k k' : Kernel} {content : List UInt8}

theorem Appendable.atEnd (h : Appendable k.fs n i) (hopen : OpenFor k fd i)
    (hbytes : fileBytes k.fs i = content)
    (hoff : (k.current.fdTable fd).offset = content.length) : AtEnd n fd i k content :=
  ⟨hopen, h.ready, h.short, h.found, h.file, h.extent, hbytes, hoff⟩

/-- There is room for the largest file that `file_write` can write. -/
def Roomy (fs : Fs) (i : Nat) : Prop :=
  highWater (setFlags fs.dir i 0) + sectorsOf writeBufSize ≤ 2 ^ 28

theorem AtEnd.appendable (h : AtEnd n fd i k content) (hroom : Roomy k.fs i) :
    Appendable k.fs n i :=
  ⟨h.ready, h.short, h.found, h.file, h.extent, hroom⟩

theorem AtEnd.contents (h : AtEnd n fd i k content) : contents k.fs n = some content :=
  (contents_of_found h.ready h.found h.extent).trans (congrArg some h.bytes)

theorem contents_of_none {fs : Fs} (h : ¬0 ≤ alfsFind fs (some n)) :
    AliOS.contents fs n = none := by
  rw [AliOS.contents, alfsRead_eq, if_neg fun hhas => h hhas.2.1]

theorem Kernel.openFor_openFile (k : Kernel) (hfd : fd < taskFdMax) (off : Nat) :
    OpenFor (k.openFile fd i off) fd i ∧
      ((k.openFile fd i off).current.fdTable fd).offset = off := by
  have hself := k.setFd_self fd
    { k.current.fdTable fd with used := true, type := .file, alfsIdx := i, offset := off }
  refine ⟨⟨hfd, ?_, ?_, ?_⟩, ?_⟩ <;> (unfold Kernel.openFile; rw [hself])

/-- `sys_open_w` leaves the descriptor at the end of the file, which it has made empty unless it
is to append. -/
theorem OpenReady.sysOpenW {cwd uname : CStr} {append : Bool} (h : OpenReady k.fs n append)
    (hn : pathResolve cwd uname = n)
    (hreg : ∀ i, findEntry k.fs.dir n = some i → entryDir k.fs.dir i = false)
    (hcall : sysOpenW k cwd uname append = ((fd : Int), k')) :
    ∃ i, AtEnd n fd i k' (writeBase k.fs n append) := by
  unfold AliOS.sysOpenW at hcall
  cases hfree : freeFd k.current.fdTable with
  | none =>
    simp only [hfree, Prod.mk.injEq] at hcall
    omega
  | some fd' =>
    simp only [hfree, hn] at hcall
    have hlt := (freeFd_spec hfree).2.1
    by_cases hold : append = true ∧ alfsFind k.fs (some n) ≥ 0
    · -- an old file to append to
      obtain ⟨j, hready, hj, hfind⟩ := alfsFind_nonneg (Int.not_lt.mpr hold.2)
      have hextent := h.extent hold.1 j hj
      have hprep : prepareWrite k.fs n append = (some (entrySize k.fs.dir j), k.fs) := by
        simp [prepareWrite, hold.1, hfind, alfsSize_of_found hready hj]
      have hidx : ¬(j : Int) < 0 := by omega
      simp only [hprep, hfind, hidx, if_false, Prod.mk.injEq, Int.natCast_inj] at hcall
      obtain ⟨rfl, rfl⟩ := hcall
      obtain ⟨hopen, hoff⟩ := k.openFor_openFile (i := j) hlt (entrySize k.fs.dir j)
      have hbase : writeBase k.fs n append = fileBytes k.fs j := by
        simp [writeBase, hold.1, contents_of_found hready hj hextent]
      refine ⟨j, hopen, hready, h.short, hj, hreg j hj, hextent, hbase.symm, ?_⟩
      rw [hoff, hbase, fileBytes, length_slice]
    · -- the file is made empty
      have hprep : prepareWrite k.fs n append =
          (if (alfsWrite k.fs (some n) (some fun _ => 0) 0).1 < 0 then none else some 0,
            (alfsWrite k.fs (some n) (some fun _ => 0) 0).2) := by
        rw [prepareWrite, if_neg hold]
      have hbase : writeBase k.fs n append = [] := by
        unfold writeBase
        by_cases happ : append = true
        · rw [if_pos happ, contents_of_none fun hge => hold ⟨happ, hge⟩]
          rfl
        · rw [if_neg happ]
      rw [hprep] at hcall
      by_cases hfail : (alfsWrite k.fs (some n) (some fun _ => 0) 0).1 < 0
      · simp only [hfail, if_true, Prod.mk.injEq] at hcall
        omega
      · obtain ⟨heq, -⟩ | ⟨n', slot, base, hn', hready, -, hch, -⟩ :=
          alfsWrite_cases k.fs (some n) (some fun _ => 0) 0
        · simp [heq] at hfail
        · cases hn'
          obtain ⟨happ, hbytes⟩ := hch.write hready h.short (h.room slot base hch) (Nat.zero_le _)
            (Int.not_lt.mp hfail)
          have hidx : ¬(slot : Int) < 0 := by omega
          simp only [hfail, if_false, happ.alfsFind, hidx, Prod.mk.injEq, Int.natCast_inj] at hcall
          obtain ⟨rfl, rfl⟩ := hcall
          obtain ⟨hopen, hoff⟩ := Kernel.openFor_openFile (i := slot)
            { k with fs := (alfsWrite k.fs (some n) (some fun _ => 0) 0).2 } hlt 0
          refine ⟨slot, Appendable.atEnd happ hopen (hbytes.trans ?_) (hoff.trans ?_)⟩
          · rw [hbase]
            rfl
          · rw [hbase]
            rfl

/-! ## writing -/

/-- A call of `sys_write` with `bytes` in its buffer, in the conditions it needs: no transfer
fails, there is room on the disk, and the sum of offset and length does not wrap. -/
structure WriteCall (k : Kernel) (fd i buf : Nat) (bytes : List UInt8) : Prop where
  quiet : k.fs.disk.script = []
  room : Roomy k.fs i
  loads : Loads k.machine buf bytes
  sum : (k.current.fdTable fd).offset + bytes.length < 2 ^ 32

/-- A call on a descriptor for a file. -/
theorem OpenFor.sysWrite (h : OpenFor k fd i) (wb : Bytes) (buf len : Nat) :
    sysWrite k wb fd buf len = (k.fileWrite wb fd buf len).map fun r => (.returned r.1, r.2) := by
  rw [sysWrite_file h.lt]
  simp [TaskFd.isFile, h.used, h.type]

/-- Without a failing transfer `alfs_write` returns its slot. -/
theorem Chosen.write_returns {fs : Fs} {slot : Nat} {base buf : Bytes} {size : Nat}
    (h : Chosen fs.dir n slot base) (hready : fs.ready) (hquiet : fs.disk.script = []) :
    (alfsWrite fs (some n) (some buf) size).1 = slot := by
  obtain ⟨-, hno⟩ | ⟨n', slot', base', hn, -, -, hch, hout⟩ :=
    alfsWrite_cases fs (some n) (some buf) size
  · exact absurd h (hno hready (by simp) n rfl slot base)
  · cases hn
    obtain ⟨rfl, rfl⟩ := hch.unique h
    obtain ⟨-, -, k, -, hfails⟩ | ⟨-, -, -, hfails⟩ | ⟨hret, -⟩ := hout.script_cases
    · simp [hquiet, failsAt] at hfails
    · simp [hquiet, failsAt] at hfails
    · exact hret

/-- The old bytes are read back. -/
theorem AtEnd.stageOld (h : AtEnd n fd i k content) (hquiet : k.fs.disk.script = [])
    (hroom : Roomy k.fs i)
    (hsmall : content.length ≤ writeBufSize) (wb : Bytes) : k.stageOld wb i content.length =
      (true, blit wb 0 (min content.length content.length) (ofList content), k) := by
  obtain ⟨ok, heq⟩ := (h.appendable hroom).stageOld hquiet wb content.length
  rw [h.bytes] at heq
  rw [heq]
  have hok : (k.stageOld wb i content.length).1 := by
    obtain ⟨hlt, hused, -⟩ := findEntry_eq_some.mp h.found
    unfold Kernel.stageOld
    split
    · refine decide_eq_true ?_
      unfold writeBufSize at hsmall
      rw [alfsPread_quiet k.fs hquiet h.ready hlt hused h.extent, asInt, if_pos (by omega)]
      exact Int.natCast_nonneg _
    · rfl
  rw [heq] at hok
  rw [show ok = true from hok]

/-- **One write** at the end of the file: it is refused if the file would outgrow `write_buf`,
and adds its bytes otherwise. -/
theorem AtEnd.sysWrite {buf : Nat} {bytes : List UInt8} (h : AtEnd n fd i k content)
    (hc : WriteCall k fd i buf bytes) (wb : Bytes) :
    (writeBufSize < content.length + bytes.length ∧
        sysWrite k wb fd buf bytes.length = some (.returned (-1), wb, k)) ∨
      (content.length + bytes.length ≤ writeBufSize ∧ ∃ wb' k',
        sysWrite k wb fd buf bytes.length = some (.returned bytes.length, wb', k') ∧
          AtEnd n fd i k' (content ++ bytes)) := by
  have hsum := hc.sum
  rw [h.offset] at hsum
  have hmod : (content.length + bytes.length) % 2 ^ 32 = content.length + bytes.length :=
    Nat.mod_eq_of_lt hsum
  have hwrite := h.open_.sysWrite wb buf bytes.length
  by_cases hlarge : writeBufSize < content.length + bytes.length
  · refine .inl ⟨hlarge, ?_⟩
    rw [hwrite, Kernel.fileWrite]
    rw [h.offset, hmod, if_pos hlarge]
    rfl
  · have hsmall : content.length + bytes.length ≤ writeBufSize := Nat.not_lt.mp hlarge
    refine .inr ⟨hsmall, ?_⟩
    have happ := h.appendable hc.room
    have hint : asInt bytes.length = bytes.length :=
      if_pos (by unfold writeBufSize at hsmall; omega)
    have hreturns : ∃ wb' k', AliOS.sysWrite k wb fd buf bytes.length =
        some (.returned bytes.length, wb', k') := by
      obtain ⟨name, size, hstat, hname⟩ := happ.alfsStat
      have hstage := h.stageOld hc.quiet hc.room (by omega) wb
      have hret : ∀ src, ¬(alfsWrite k.fs (some n) (some src) (content.length + bytes.length)).1 <
          0 := fun src => by
        rw [happ.chosen.write_returns happ.ready hc.quiet]
        omega
      rw [hwrite, Kernel.fileWrite]
      rw [h.offset, hmod, if_neg hlarge, h.open_.idx, hstage]
      dsimp only
      rw [stageNew_eq hc.loads hsum, Option.map_some, Option.map_some, Kernel.storeFile]
      rw [h.open_.idx, hstat]
      dsimp only
      rw [hname, if_neg (hret _), hint]
      exact ⟨_, _, rfl⟩
    obtain ⟨wb', k', hcall⟩ := hreturns
    refine ⟨wb', k', hcall, ?_⟩
    obtain ⟨total, hw⟩ := happ.sysWrite hc.quiet h.open_.lt h.open_.used h.open_.type h.open_.idx
      hc.loads hcall
      (Int.natCast_nonneg _)
    have htotal : total = (content ++ bytes).length := by
      rw [hw.total_eq, h.offset, hmod, length_append]
    have hbytes : fileBytes k'.fs i = content ++ bytes := by
      rw [hw.file, hw.buf hc.sum, h.offset, h.bytes, htotal]
      refine slice_stage_append ?_
      rw [slice_stage_of_le le_rfl le_rfl, take_length]
    have hself : k'.current.fdTable fd =
        { k.current.fdTable fd with alfsIdx := i, offset := total } := by
      rw [hw.fdTable, Function.update_self]
    refine hw.appendable.atEnd ⟨h.open_.lt, ?_, ?_, ?_⟩ hbytes ?_ <;> rw [hself]
    · exact h.open_.used
    · exact h.open_.type
    · exact htotal

/-! ## runs -/

/-- What happens between two writes leaves the descriptor and the file as they are. -/
structure LeavesFile (n : CStr) (fd i : Nat) (k k' : Kernel) : Prop where
  fd : k'.current.fdTable fd = k.current.fdTable fd
  ready : k'.fs.ready = k.fs.ready
  found : findEntry k'.fs.dir n = findEntry k.fs.dir n
  entry : SameEntry k.fs.dir k'.fs.dir i
  bytes : fileBytes k'.fs i = fileBytes k.fs i

/-- Writes through one descriptor, with the bytes of the calls that have returned their length.
`write_buf` may hold anything at the start of a call. -/
inductive WriteRun (n : CStr) (fd i : Nat) (k₀ : Kernel) : Kernel → List UInt8 → Prop where
  | start : WriteRun n fd i k₀ k₀ []
  | idle {k k' : Kernel} {out : List UInt8} :
      WriteRun n fd i k₀ k out → LeavesFile n fd i k k' → WriteRun n fd i k₀ k' out
  | write {k k' : Kernel} {out : List UInt8} (wb : Bytes) (buf : Nat) (bytes : List UInt8) (v : Int)
      (wb' : Bytes) :
      WriteRun n fd i k₀ k out → WriteCall k fd i buf bytes →
      sysWrite k wb fd buf bytes.length = some (.returned v, wb', k') →
      WriteRun n fd i k₀ k' (if v = bytes.length then out ++ bytes else out)

/-- What a call returns, and what it leaves when that is -1. -/
structure WriteResult (n : CStr) (fd : Nat) (k : Kernel) (bytes : List UInt8) (v : Int)
    (k' : Kernel) : Prop where
  value : v = bytes.length ∨ v = -1
  refused : v = -1 ↔ writeBufSize < (k.current.fdTable fd).offset + bytes.length
  unchanged : v = -1 → contents k'.fs n = contents k.fs n ∧
    (k'.current.fdTable fd).offset = (k.current.fdTable fd).offset

theorem AtEnd.idle (h : AtEnd n fd i k content) (hu : LeavesFile n fd i k k') :
    AtEnd n fd i k' content := by
  obtain ⟨hstart, hsize, -⟩ := entry_congr hu.entry
  refine ⟨⟨h.open_.lt, ?_, ?_, ?_⟩, hu.ready.trans h.ready, h.short, hu.found.trans h.found,
    hu.entry.flags.2.trans h.file, ?_, hu.bytes.trans h.bytes, ?_⟩
  · rw [hu.fd]
    exact h.open_.used
  · rw [hu.fd]
    exact h.open_.type
  · rw [hu.fd]
    exact h.open_.idx
  · rw [hstart, hsize]
    exact h.extent
  · rw [hu.fd]
    exact h.offset

theorem WriteRun.atEnd {k₀ : Kernel} {base out : List UInt8} (h0 : AtEnd n fd i k₀ base)
    (hrun : WriteRun n fd i k₀ k out) : AtEnd n fd i k (base ++ out) := by
  induction hrun with
  | start =>
    rw [append_nil]
    exact h0
  | idle _ hu ih => exact ih.idle hu
  | write wb buf bytes v wb' _ hc hcall ih =>
    obtain ⟨-, hcall'⟩ | ⟨-, wb2, k2, hcall', hend⟩ := ih.sysWrite hc wb
    · rw [hcall'] at hcall
      cases hcall
      exact ih
    · rw [hcall'] at hcall
      cases hcall
      rw [if_pos rfl, ← append_assoc]
      exact hend

theorem AtEnd.writeResult {buf : Nat} {bytes : List UInt8} (h : AtEnd n fd i k content)
    (hc : WriteCall k fd i buf bytes) (wb : Bytes) : ∃ v wb' k',
      AliOS.sysWrite k wb fd buf bytes.length = some (.returned v, wb', k') ∧
        WriteResult n fd k bytes v k' := by
  obtain ⟨hlarge, hcall⟩ | ⟨hsmall, wb', k', hcall, -⟩ := h.sysWrite hc wb
  · refine ⟨_, _, _, hcall, .inr rfl, iff_of_true rfl ?_, fun _ => ⟨rfl, rfl⟩⟩
    rw [h.offset]
    exact hlarge
  · refine ⟨_, _, _, hcall, .inl rfl, iff_of_false (by omega) ?_, fun hv => absurd hv (by omega)⟩
    rw [h.offset]
    omega

/-- **Writing a file in sequence**: after any writes through one descriptor of `sys_open_w` the
file holds what it held at the start and then the bytes of the calls that succeeded; a call
returns its length, or -1 exactly if the file would outgrow `write_buf`, with nothing
changed. -/
theorem sequential_writes {cwd uname : CStr} {append : Bool}
    (hok : OpenReady k.fs (pathResolve cwd uname) append)
    (hreg : ∀ i, findEntry k.fs.dir (pathResolve cwd uname) = some i → entryDir k.fs.dir i = false)
    (hopen : sysOpenW k cwd uname append = ((fd : Int), k')) :
    ∃ i : Nat, (k'.current.fdTable fd).alfsIdx = i ∧
      ∀ k₁ out, WriteRun (pathResolve cwd uname) fd i k' k₁ out →
      contents k₁.fs (pathResolve cwd uname) =
        some (writeBase k.fs (pathResolve cwd uname) append ++ out) ∧
      ∀ wb buf bytes, WriteCall k₁ fd i buf bytes → ∃ v wb' k₂,
        sysWrite k₁ wb fd buf bytes.length = some (.returned v, wb', k₂) ∧
          WriteResult (pathResolve cwd uname) fd k₁ bytes v k₂ := by
  obtain ⟨i, hend⟩ := hok.sysOpenW rfl hreg hopen
  refine ⟨i, hend.open_.idx, fun k₁ out hrun => ?_⟩
  have hend1 := hrun.atEnd hend
  exact ⟨hend1.contents, fun wb buf bytes hc => hend1.writeResult hc wb⟩

end

/-! ## one byte -/

/-- A task makes calls on a disk with the directory `dir`. -/
def writingKernel (dir : Bytes) : Kernel := (bootSystem dir).kernel ⟨0, onesMachine, []⟩

theorem openReady_dirA (append : Bool) : OpenReady (writingKernel dirA).fs pathA append := by
  have happ := appendable_dirA
  refine ⟨happ.short, fun _ i hi => ?_, fun slot base hch => ?_⟩
  · have heq : (some i : Option Nat) = some 0 := hi.symm.trans happ.found
    cases heq
    exact happ.extent
  · obtain ⟨rfl, rfl⟩ := happ.chosen.unique hch
    exact happ.room

/-- A byte is added to "/a". -/
theorem sequential_writes_one :
    ∃ k' wb k₂, sysOpenW (writingKernel dirA) rootPath pathA true = (((3 : Nat) : Int), k') ∧
    sysWrite k' (fun _ => 0) 3 256 1 = some (.returned 1, wb, k₂) ∧
      contents k₂.fs pathA = some [0, 1] := by
  have hn : pathResolve rootPath pathA = pathA := CStr.ext (by decide +kernel)
  have hfd : (sysOpenW (writingKernel dirA) rootPath pathA true).1 =
      ((3 : Nat) : Int) := by decide +kernel
  obtain ⟨k', hopen, hmachine⟩ : ∃ k', sysOpenW (writingKernel dirA) rootPath pathA true =
    (((3 : Nat) : Int), k') ∧
      k'.machine = onesMachine := ⟨_, Prod.ext hfd rfl, rfl⟩
  obtain ⟨-, hfs, htable⟩ := appendable_dirA.sysOpenW (k := writingKernel dirA) hn hopen
  obtain ⟨i, hidx, hall⟩ := sequential_writes (by rw [hn]; exact openReady_dirA true)
    (fun i hi => by
      have heq : (some i : Option Nat) = some 0 := hi.symm.trans appendable_dirA.found
      cases heq
      exact appendable_dirA.file) hopen
  rw [hn] at hall
  have hself : k'.current.fdTable 3 = _ := (congrFun htable 3).trans (Function.update_self ..)
  have hi : i = 0 := by
    rw [hself] at hidx
    exact (Int.natCast_inj.mp hidx).symm
  subst hi
  have hcall : WriteCall k' 3 0 256 [1] := by
    refine ⟨by rw [hfs]; rfl, ?_, ?_, ?_⟩
    · rw [Roomy, hfs]
      exact appendable_dirA.room
    · rw [hmachine]
      exact loads_onesMachine
    · rw [hself]
      decide +kernel
  obtain ⟨v, wb, k₂, hrun, hres⟩ := (hall k' [] .start).2 (fun _ => 0) 256 [1] hcall
  have hv : v = ([1] : List UInt8).length := hres.value.resolve_right fun hno => by
    have hlarge := hres.refused.mp hno
    rw [hself] at hlarge
    exact absurd hlarge (by decide +kernel)
  subst hv
  refine ⟨k', wb, k₂, hopen, hrun, ?_⟩
  rw [(hall k₂ _ (.write _ _ _ _ _ .start hcall hrun)).1, if_pos rfl]
  decide +kernel

/-- "/b" ends behind sector 2^28. -/
def dirFar : Bytes := setEntry (fun _ => 0) 0 pathB (2 ^ 28) 512 alfsFlagUsed

/-- A byte 1 is written to the new file "/a"; it goes to sector 1, and then the directory does:
the file holds the first byte of the directory, '/'. -/
theorem sequential_write_lost : ∃ k' wb k₂, sysOpenW (writingKernel dirFar) rootPath pathA false =
      (((3 : Nat) : Int), k') ∧
    sysWrite k' (fun _ => 0) 3 256 1 = some (.returned 1, wb, k₂) ∧
    writeBase (writingKernel dirFar).fs pathA false = [] ∧ contents k₂.fs pathA = some [slash] := by
  have hfd : (sysOpenW (writingKernel dirFar) rootPath pathA false).1 =
      ((3 : Nat) : Int) := by decide +kernel
  have hany : (sysWrite (sysOpenW (writingKernel dirFar) rootPath pathA false).2
      (fun _ => 0) 3 256 1).any
      (fun r => r.1.isOne && decide (contents r.2.2.fs pathA = some [slash])) =
        true := by decide +kernel
  obtain ⟨wb, k₂, hcall, hdata⟩ :=
    exists_returned_one (p := fun r => decide (contents r.2.fs pathA = some [slash])) hany
  exact ⟨_, wb, k₂, Prod.ext hfd rfl, hcall, rfl, of_decide_eq_true hdata⟩

end AliOS
