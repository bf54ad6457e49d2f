import AliOS.Alfs.Errors
import AliOS.Lib.SharedLog
import AliOS.System.EndCount

/-!
# AliOS.System.Append

Several descriptors opened for appending to one file.  `sys_open_w` gives each the size of
the file as its offset, and `file_write` writes the file again from its start to the end
of the new bytes, through `write_buf`.  So a write through one descriptor is lost when
another, which does not know of it, writes after it.

The calls follow `AliOS.Lib.SharedLog`; what remains are the bytes a call loads, the entry
that stays in its slot, and files that do not fit into `write_buf`.
-/

namespace AliOS

open Lib Function Option

variable {base buf : Bytes} {slot size i fd : Nat} {k : Kernel}

/-! ## the file -/

/-- The bytes in the extent of entry `i`. -/
def fileBytes (fs : Fs) (i : Nat) : List UInt8 :=
  slice fs.disk.data (512 * entryStart fs.dir i) (entrySize fs.dir i)

/-- What reading the whole file `n` delivers. -/
def contents (fs : Fs) (n : CStr) : Option (List UInt8) :=
  (alfsRead fs.quiet (alfsFind fs (some n)) (alfsSize fs (alfsFind fs (some n)))).1

/-- Entry `i` is the file `n`, and there is room on the disk for the largest file that
`file_write` can write. -/
structure Appendable (fs : Fs) (n : CStr) (i : Nat) : Prop where
  ready : fs.ready = true
  short : n.length < alfsNameMax
  found : findEntry fs.dir n = some i
  file : entryDir fs.dir i = false
  extent : entryStart fs.dir i + sectorsOf (entrySize fs.dir i) ≤ 2 ^ 28
  room : highWater (setFlags fs.dir i 0) + sectorsOf writeBufSize ≤ 2 ^ 28

section

variable {fs : Fs} {n : CStr} {i : Nat}

theorem Appendable.lt (h : Appendable fs n i) : i < alfsMaxFiles := (findEntry_eq_some.mp h.found).1

theorem Appendable.used (h : Appendable fs n i) : entryUsed fs.dir i :=
  (findEntry_eq_some.mp h.found).2.1

theorem alfsFind_of_found (hready : fs.ready) (hfound : findEntry fs.dir n = some i) :
    alfsFind fs (some n) = i := by
  simp [AliOS.alfsFind, hready, hfound, slotOrFail]

theorem alfsSize_of_found (hready : fs.ready) (hfound : findEntry fs.dir n = some i) :
    alfsSize fs i = entrySize fs.dir i := by
  obtain ⟨hi, hused, -⟩ := findEntry_eq_some.mp hfound
  unfold AliOS.alfsSize
  rw [if_neg (by simp [hready]; omega)]
  simp [hused]

theorem contents_of_found (hready : fs.ready) (hfound : findEntry fs.dir n = some i)
    (hextent : entryStart fs.dir i + sectorsOf (entrySize fs.dir i) ≤ 2 ^ 28) :
    contents fs n = some (fileBytes fs i) := by
  obtain ⟨hi, hused, -⟩ := findEntry_eq_some.mp hfound
  have hread := alfsRead_quiet fs.quiet rfl hready hi hused hextent (entrySize fs.dir i)
  simp only [AliOS.contents, alfsFind_of_found hready hfound, alfsSize_of_found hready hfound,
    hread]
  simp [Fs.quiet, Disk.quiet, fileBytes]

theorem Appendable.alfsFind (h : Appendable fs n i) : alfsFind fs (some n) = i :=
  alfsFind_of_found h.ready h.found

theorem Appendable.contents (h : Appendable fs n i) : contents fs n = some (fileBytes fs i) :=
  contents_of_found h.ready h.found h.extent

theorem Appendable.withScript (h : Appendable fs n i) (o : List AtaOutcome) :
    Appendable (fs.withScript o) n i :=
  ⟨h.ready, h.short, h.found, h.file, h.extent, h.room⟩

/-- The name by which `file_write` writes the file again. -/
theorem Appendable.alfsStat (h : Appendable fs n i) :
    ∃ bytes size, alfsStat fs i = some (bytes, size) ∧ CStr.ofBytes bytes = n := by
  have hi := h.lt
  obtain ⟨-, -, hstreq, -⟩ := findEntry_eq_some.mp h.found
  refine ⟨slice fs.dir (64 * i) alfsNameMax, entrySize fs.dir i, ?_, ?_⟩
  · unfold AliOS.alfsStat
    rw [if_neg (by simp [h.ready]; omega)]
    simp [h.used]
  · exact CStr.ext ((streq_entryName h.short).mp hstreq)

/-- The high-water mark does not depend on an entry out of use. -/
theorem highWater_unlinked_setEntry (dir : Bytes) (start size flags : Nat) :
    highWater (setFlags (setEntry dir i n start size flags) i 0) ≤ highWater dir := by
  refine highWater_le (dataStart_le_highWater dir) fun j hj hfile => ?_
  have hji : j ≠ i := by
    rintro rfl
    simpa [entryUsed_setFlags_zero] using hfile.1
  have hsame : SameEntry dir (setFlags (setEntry dir i n start size flags) i 0) j := fun k hk => by
    rw [setFlags_of_notMem (by omega), setEntry_of_notMem (by omega)]
  obtain ⟨hstart, hsize, hflags⟩ := entry_congr hsame
  have hend : entryEnd (setFlags (setEntry dir i n start size flags) i 0) j = entryEnd dir j := by
    rw [entryEnd, hstart, hsize, entryEnd]
  rw [hend]
  exact entryEnd_le_highWater hj ⟨(entryUsed_congr hflags).1 ▸ hfile.1,
    (entryUsed_congr hflags).2 ▸ hfile.2⟩

/-- No entry before the chosen one has the name. -/
theorem Chosen.first {dir : Bytes} (h : Chosen dir n slot base) :
    ∀ j < slot, ¬(entryUsed dir j ∧ streq (entryName dir j) n.chars) := by
  obtain ⟨hf, -, -⟩ | ⟨hf, hslot, -⟩ := h
  · exact (findEntry_eq_some.mp hf).2.2.2
  · have hlt := (firstUnused_eq_some.mp hslot).1
    exact fun j hj => findEntry_eq_none.mp hf j (by omega)

/-- What `alfs_write` leaves when it has written `size` bytes under the name `n` into `slot`. -/
structure FileWritten (fs fs' : Fs) (n : CStr) (slot : Nat) (base buf : Bytes)
    (size : Nat) : Prop where
  ready : fs'.ready = fs.ready
  dir : fs'.dir = setEntry base slot n (highWater base) size alfsFlagUsed
  found : findEntry fs'.dir n = some slot
  file : entryDir fs'.dir slot = false
  start : entryStart fs'.dir slot = highWater base
  length : entrySize fs'.dir slot = size
  bytes : fileBytes fs' slot = slice buf 0 size
  others : ∀ j ≠ slot, SameEntry fs.dir fs'.dir j
  frame : ∀ a, 512 * alfsDataStart ≤ a → a < 512 * highWater base → fs'.disk.data a = fs.disk.data a

/-- Writing a file, over an old one or into a new entry. -/
theorem Chosen.written (hch : Chosen fs.dir n slot base) (hshort : n.length < alfsNameMax)
    (hsize : size < 2 ^ 32) (hroom : highWater base + writtenSectors size ≤ 2 ^ 28)
    (hret : 0 ≤ (alfsWrite fs (some n) (some buf) size).1) :
    FileWritten fs (alfsWrite fs (some n) (some buf) size).2 n slot base buf size := by
  obtain ⟨heq, -⟩ | ⟨n', slot', base', hn, -, -, hch', hout⟩ :=
    alfsWrite_cases fs (some n) (some buf) size
  · simp [heq] at hret
  · cases hn
    obtain ⟨rfl, rfl⟩ := hch'.unique hch
    obtain ⟨hready, hframe, hdir⟩ := hout.effect hch.lt (by dsimp only; omega)
    generalize alfsWrite fs (some n) (some buf) size = r at *
    obtain ⟨hfail, -⟩ | ⟨hdir, -, hstore⟩ := hdir
    · omega
    have hself := setEntry_self base slot n (highWater_lt base) hsize
      (show alfsFlagUsed < 2 ^ 32 by decide)
    rw [← hdir] at hself
    obtain ⟨hst, hsz, hflags, -⟩ := hself
    have hname : nameOf r.2.dir slot = n.chars := by
      rw [hdir, nameOf_setEntry _ slot n (highWater_lt _) hsize (by decide),
        CStr.take_of_length_le (by unfold alfsNameMax at *; omega)]
    have hothers : ∀ j ≠ slot, SameEntry fs.dir r.2.dir j := fun j hj k hk => by
      rw [hdir, setEntry_of_notMem (by omega)]
      exact hch.base_spec.2 j hj k hk
    refine ⟨hready, hdir, ?_, ?_, hst, hsz, ?_, hothers, fun a hlo hhi => hframe a hlo (.inl hhi)⟩
    · refine findEntry_eq_some.mpr ⟨hch.lt, ?_, (streq_entryName hshort).mpr hname, fun j hj => ?_⟩
      · rw [(entryUsed_of_flags hflags).1]
        rfl
      · -- the entries before it are as they were
        have hsame := hothers j (by omega)
        rw [hsame.flags.1, streq_entryName hshort, hsame.nameOf, ← streq_entryName hshort]
        exact hch.first j hj
    · rw [(entryUsed_of_flags hflags).2]
      rfl
    · rw [fileBytes, hst, hsz]
      exact slice_congr fun k hk => (hstore k hk).trans (by rw [Nat.zero_add]; rfl)

/-- Writing a file that `file_write` can write. -/
theorem Chosen.write (hch : Chosen fs.dir n slot base) (hready : fs.ready)
    (hshort : n.length < alfsNameMax) (hroom : highWater base + sectorsOf writeBufSize ≤ 2 ^ 28)
    (hsize : size ≤ writeBufSize) (hret : 0 ≤ (alfsWrite fs (some n) (some buf) size).1) :
    Appendable (alfsWrite fs (some n) (some buf) size).2 n slot ∧
      fileBytes (alfsWrite fs (some n) (some buf) size).2 slot = slice buf 0 size := by
  unfold writeBufSize at hsize
  have hsectors : writtenSectors size ≤ sectorsOf writeBufSize := by
    unfold writtenSectors sectorsOf writeBufSize
    split <;> omega
  have hw := hch.written hshort (show size < 2 ^ 32 by omega) (by omega) hret
  refine ⟨⟨hw.ready.trans hready, hshort, hw.found, hw.file, ?_, ?_⟩, hw.bytes⟩
  · rw [hw.start, hw.length]
    have := sectorsOf_le_writtenSectors size
    omega
  · have hle := highWater_unlinked_setEntry (i := slot) (n := n) base (highWater base)
      size alfsFlagUsed
    rw [← hw.dir] at hle
    exact (Nat.add_le_add_right hle _).trans hroom

theorem Appendable.chosen (h : Appendable fs n i) : Chosen fs.dir n i (setFlags fs.dir i 0) :=
  .inl ⟨h.found, h.file, rfl⟩

end

/-! ## the calls -/

/-- The bytes at `p`, as `file_write` loads them. -/
def Loads (m : Machine) (p : Nat) (bytes : List UInt8) : Prop :=
  ∀ j (h : j < bytes.length), kload8 m ((p + j) % 2 ^ 32) = some bytes[j]

theorem stageNew_eq {m : Machine} {buf off : Nat} {bytes : List UInt8} (hload : Loads m buf bytes)
    (hoff : off + bytes.length < 2 ^ 32) (wb : Bytes) :
    stageNew m buf off bytes.length wb = some (blit wb off bytes.length (ofList bytes)) := by
  obtain ⟨wb', hrun, rfl⟩ := forRangeM_total (fun j wb' => wb' = blit wb off j (ofList bytes))
    (f := fun j wb => (kload8 m ((buf + j) % 2 ^ 32)).map (update wb ((off + j) % 2 ^ 32)))
    (a := 0) (n := bytes.length) (s := wb) (by funext k; rw [blit_of_notMem (by omega)]) (by
      rintro j _ - hj rfl
      have hlt : j < bytes.length := by omega
      refine ⟨_, by rw [hload j hlt]; rfl, ?_⟩
      funext k
      rw [Nat.mod_eq_of_lt (by omega), update_apply]
      split
      · next heq =>
          subst heq
          simp [ofList, List.getD, List.getElem?_eq_getElem hlt]
      · unfold blit
        split <;> split <;> first | rfl | omega)
  rw [Nat.zero_add] at hrun
  exact hrun

theorem Appendable.stageOld {n : CStr} (h : Appendable k.fs n i) (hdisk : k.fs.disk.script = [])
    (wb : Bytes) (off : Nat) : ∃ ok, k.stageOld wb i off =
      (ok, blit wb 0 (min off (fileBytes k.fs i).length) (ofList (fileBytes k.fs i)), k) := by
  unfold Kernel.stageOld
  split
  · rw [alfsPread_quiet k.fs hdisk h.ready h.lt h.used h.extent]
    refine ⟨_, Prod.ext rfl (Prod.ext ?_ rfl)⟩
    simp only [length_slice, fileBytes, Nat.sub_zero, Nat.add_zero]
    refine blit_congr fun j hj => ?_
    simp [ofList, slice, List.getD, show j < off by omega, show j < entrySize k.fs.dir i by omega]
  · refine ⟨true, Prod.ext rfl (Prod.ext (funext fun j => ?_) rfl)⟩
    exact (blit_of_notMem (by omega)).symm

/-- What a successful `sys_write` to an appendable file does. -/
structure WroteFile (k : Kernel) (n : CStr) (i fd : Nat) (wb : Bytes) (bytes : List UInt8)
    (wb' : Bytes) (k' : Kernel) (total : Nat) : Prop where
  total_eq : total = ((k.current.fdTable fd).offset + bytes.length) % 2 ^ 32
  total_le : total ≤ writeBufSize
  result : 0 ≤ asInt bytes.length
  appendable : Appendable k'.fs n i
  file : fileBytes k'.fs i = slice wb' 0 total
  buf : (k.current.fdTable fd).offset + bytes.length < 2 ^ 32 →
    wb' = stage wb (fileBytes k.fs i) (k.current.fdTable fd).offset bytes
  fdTable : k'.current.fdTable =
    update k.current.fdTable fd { k.current.fdTable fd with alfsIdx := i, offset := total }

theorem Appendable.sysWrite {k' : Kernel} {n : CStr} {buf : Nat} {wb wb' : Bytes}
    {bytes : List UInt8}
    {v : Int} (h : Appendable k.fs n i) (hdisk : k.fs.disk.script = []) (hfd : fd < taskFdMax)
    (hused : (k.current.fdTable fd).used) (htype : (k.current.fdTable fd).type = .file)
    (hidx : (k.current.fdTable fd).alfsIdx = i) (hload : Loads k.machine buf bytes)
    (hcall : sysWrite k wb fd buf bytes.length = some (.returned v, wb', k')) (hv : 0 ≤ v) :
    ∃ total, WroteFile k n i fd wb bytes wb' k' total := by
  obtain ⟨ok, hstage⟩ := h.stageOld hdisk wb (k.current.fdTable fd).offset
  rw [sysWrite_file hfd (by simp [TaskFd.isFile, hused, htype])] at hcall
  obtain ⟨⟨v', r⟩, hwrite, heq⟩ := map_eq_some_iff.mp hcall
  obtain ⟨hv', rfl⟩ : v' = v ∧ r = (wb', k') := by simpa using heq
  subst hv'
  unfold Kernel.fileWrite at hwrite
  dsimp only at hwrite
  rw [hidx, hstage] at hwrite
  split at hwrite
  · simp at hwrite
    omega
  · rename_i htotal
    cases ok with
    | false =>
      simp at hwrite
      omega
    | true =>
      obtain ⟨wb2, hnew, heq⟩ := map_eq_some_iff.mp hwrite
      obtain ⟨bytes', size, hstat, hname⟩ := h.alfsStat
      unfold Kernel.storeFile at heq
      simp only [hidx, hstat, hname] at heq
      split at heq
      · simp at heq
        omega
      · rename_i hret
        simp only [Prod.mk.injEq] at heq
        obtain ⟨rfl, rfl, rfl⟩ := heq
        obtain ⟨happ, hbytes⟩ := h.chosen.write h.ready h.short h.room (Nat.le_of_not_lt htotal)
          (Int.not_lt.mp hret)
        refine ⟨_, rfl, Nat.le_of_not_lt htotal, hv, happ, hbytes, fun hoff => ?_, ?_⟩
        · rw [stageNew_eq hload hoff] at hnew
          exact (some.inj hnew).symm
        · dsimp only
          rw [happ.alfsFind, ← Nat.add_mod_mod, Nat.add_mod_mod]
          rfl

/-- What a successful `sys_open_w` for appending does. -/
theorem Appendable.sysOpenW {k' : Kernel} {cwd uname n : CStr} (h : Appendable k.fs n i)
    (hn : pathResolve cwd uname = n) (hcall : sysOpenW k cwd uname true = ((fd : Int), k')) :
    fd < taskFdMax ∧ k'.fs = k.fs ∧ k'.current.fdTable = update k.current.fdTable fd
      { k.current.fdTable fd with
        used := true, type := .file, alfsIdx := i, offset := (fileBytes k.fs i).length } := by
  have hprep : prepareWrite k.fs n true = (some (fileBytes k.fs i).length, k.fs) := by
    simp [prepareWrite, h.alfsFind, alfsSize_of_found h.ready h.found, fileBytes]
  unfold AliOS.sysOpenW at hcall
  cases hfree : freeFd k.current.fdTable with
  | none =>
    simp only [hfree, Prod.mk.injEq] at hcall
    omega
  | some fd' =>
    have hidx : ¬(i : Int) < 0 := by omega
    simp only [hfree, hn, hprep, h.alfsFind, hidx, if_false, Prod.mk.injEq,
      Int.natCast_inj] at hcall
    obtain ⟨rfl, rfl⟩ := hcall
    exact ⟨(freeFd_spec hfree).2.1, rfl, rfl⟩

/-! ## runs -/

/-- Task `a` is running. -/
def System.onTask (s : System) (a : Nat) : System := { s with current := a }

/-- The descriptors after a call of task `a` that changes its descriptor `fd`. -/
theorem System.fd_put {s : System} {e : Surroundings} {a : Nat} {f : TaskFd}
    (hk : k.current.fdTable = update ((s.onTask a).kernel e).current.fdTable fd f) (b fd' : Nat) :
    (((s.onTask a).put k).tasks b).fdTable fd' = if b = a ∧
      fd' = fd then f else (s.tasks b).fdTable fd' := by
  by_cases hb : b = a
  · subst hb
    have hself : (((s.onTask b).put k).tasks b).fdTable = k.current.fdTable :=
      congrArg (fun t : Pcb => t.fdTable) ((s.onTask b).put_self k)
    have htasks : ((s.onTask b).kernel e).current.fdTable = (s.tasks b).fdTable := rfl
    simp [hself, hk, htasks, update_apply]
  · have hother : (((s.onTask a).put k).tasks b).fdTable = (s.tasks b).fdTable :=
      congrArg (fun t : Pcb => t.fdTable) ((s.onTask a).put_other k hb)
    simp [hother, hb]

/-- The calls of a run, latest first: tasks open the file `n` for appending and write to it
through the descriptors they get.  All calls succeed, and so do the transfers of the disk. -/
inductive AppendRun (n : CStr) (s₀ : System) : System → List (LogEvent (Nat × Nat)) → Prop
  | start : AppendRun n s₀ s₀ []
  | opened {s h} (e : Surroundings) (a : Nat) (uname : CStr) (fd : Nat) (k : Kernel) :
      AppendRun n s₀ s h → e.disk = [] → pathResolve (s.tasks a).cwd uname = n →
      sysOpenW ((s.onTask a).kernel e) (s.tasks a).cwd uname true = ((fd : Int), k) →
      AppendRun n s₀ ((s.onTask a).put k) (.opened (a, fd) :: h)
  | wrote {s h} (e : Surroundings) (a fd buf : Nat) (bytes : List UInt8) (v : Int) (wb : Bytes)
      (k : Kernel) :
      AppendRun n s₀ s h → e.disk = [] → .opened (a, fd) ∈ h → Loads e.machine buf bytes →
      bytes.length < 2 ^ 32 →
      sysWrite ((s.onTask a).kernel e) s.writeBuf fd buf bytes.length = some (.returned v, wb, k) →
        0 ≤ v →
      AppendRun n s₀ { (s.onTask a).put k with writeBuf := wb } (.wrote (a, fd) bytes :: h)

section

variable {n : CStr} {i : Nat} {s₀ s : System} {h : List (LogEvent (Nat × Nat))} {orig : List UInt8}

/-- The descriptors opened stand for entry `i`, which is still the file. -/
structure Attached (n : CStr) (i : Nat) (s : System) (h : List (LogEvent (Nat × Nat))) : Prop where
  appendable : Appendable s.fs n i
  fds : ∀ {a fd}, .opened (a, fd) ∈ h → fd < taskFdMax ∧ ((s.tasks a).fdTable fd).used = true ∧
    ((s.tasks a).fdTable fd).type = .file ∧ ((s.tasks a).fdTable fd).alfsIdx = i

theorem Attached.sysWrite (hat : Attached n i s h) {e : Surroundings} {a buf : Nat}
    {bytes : List UInt8} {v : Int} {wb : Bytes} (hdisk : e.disk = []) (hopen : .opened (a, fd) ∈ h)
    (hload : Loads e.machine buf bytes)
    (hcall : AliOS.sysWrite ((s.onTask a).kernel e) s.writeBuf fd buf bytes.length =
      some (.returned v, wb, k))
    (hv : 0 ≤ v) : ∃ total, WroteFile ((s.onTask a).kernel e) n i fd s.writeBuf bytes
      wb k total := by
  obtain ⟨hfd, hused, htype, hidx⟩ := hat.fds hopen
  exact (hat.appendable.withScript e.disk).sysWrite hdisk hfd hused htype hidx hload hcall hv

theorem AppendRun.attached (happ : Appendable s₀.fs n i) (hrun : AppendRun n s₀ s h) :
    Attached n i s h := by
  induction hrun with
  | start => exact ⟨happ, by simp⟩
  | @opened s h e a uname fd k _ _ hn hcall ih =>
    have happ := ih.appendable.withScript e.disk
    obtain ⟨hfd, hfs, htable⟩ := happ.sysOpenW (k := (s.onTask a).kernel e) hn hcall
    refine ⟨by rw [show ((s.onTask a).put k).fs = _ from hfs]; exact happ, fun {b fd'} hmem => ?_⟩
    rw [System.fd_put htable]
    split
    · next hd => exact ⟨hd.2 ▸ hfd, rfl, rfl, rfl⟩
    · next hd => exact ih.fds (by simpa [hd] using hmem)
  | @wrote s h e a fd buf bytes v wb k _ hdisk hopen hload _ hcall hv ih =>
    obtain ⟨total, hw⟩ := ih.sysWrite hdisk hopen hload hcall hv
    refine ⟨hw.appendable, fun {b fd'} hmem => ?_⟩
    obtain ⟨hfd, hused, htype, hidx⟩ := ih.fds (show .opened (b, fd') ∈ h by simpa using hmem)
    refine ⟨hfd, ?_⟩
    rw [System.fd_put hw.fdTable]
    split
    · next hd =>
        obtain ⟨rfl, rfl⟩ := hd
        exact ⟨hused, htype, rfl⟩
    · exact ⟨hused, htype, hidx⟩

/-- A file that does not fit into `write_buf` is lost with the first write. -/
theorem AppendRun.large (happ : Appendable s₀.fs n i) (hrun : AppendRun n s₀ s h) :
    Unwritten h ∧ fileBytes s.fs i = fileBytes s₀.fs i ∨
      ¬Unwritten h ∧ (fileBytes s.fs i).length ≤ writeBufSize := by
  induction hrun with
  | start => exact .inl ⟨trivial, rfl⟩
  | @opened s h e a uname fd k hrun _ hn hcall ih =>
    have happ := (hrun.attached happ).appendable.withScript e.disk
    obtain ⟨-, hfs, -⟩ := happ.sysOpenW (k := (s.onTask a).kernel e) hn hcall
    have hbytes : fileBytes k.fs i = fileBytes (s.fs.withScript e.disk) i :=
      congrArg (fileBytes · i) hfs
    show Unwritten h ∧ fileBytes k.fs i = _ ∨ _ ∧ (fileBytes k.fs i).length ≤ _
    rw [hbytes]
    exact ih
  | @wrote s h e a fd buf bytes v wb k hrun hdisk hopen hload _ hcall hv _ =>
    obtain ⟨total, hw⟩ := (hrun.attached happ).sysWrite hdisk hopen hload hcall hv
    refine .inr ⟨id, ?_⟩
    show (fileBytes k.fs i).length ≤ writeBufSize
    rw [hw.file, length_slice]
    exact hw.total_le

/-- The state stands for a log. -/
structure StandsFor (s : System) (i : Nat) (h : List (LogEvent (Nat × Nat)))
    (log : SharedLog (Nat × Nat)) : Prop where
  file : fileBytes s.fs i = log.file
  buf : s.writeBuf = log.buf
  offset : ∀ {a fd}, .opened (a, fd) ∈ h → log.offset (a, fd) = some ((s.tasks a).fdTable fd).offset
  file_le : log.file.length ≤ writeBufSize
  offset_le : ∀ {a fd}, .opened (a, fd) ∈ h → ((s.tasks a).fdTable fd).offset ≤ writeBufSize

/-- A smaller file is a shared log. -/
theorem AppendRun.log (happ : Appendable s₀.fs n i)
    (hsmall : (fileBytes s₀.fs i).length ≤ writeBufSize)
    (hrun : AppendRun n s₀ s h) : ∃ log, LogRun (fileBytes s₀.fs i) log h ∧
      StandsFor s i h log := by
  induction hrun with
  | start => exact ⟨_, .start s₀.writeBuf, rfl, rfl, by simp, hsmall, by simp⟩
  | @opened s h e a uname fd k hrun _ hn hcall ih =>
    obtain ⟨log, hlog, hst⟩ := ih
    have happ := (hrun.attached happ).appendable.withScript e.disk
    obtain ⟨-, hfs, htable⟩ := happ.sysOpenW (k := (s.onTask a).kernel e) hn hcall
    have hlen : (fileBytes ((s.onTask a).kernel e).fs i).length = log.file.length :=
      congrArg List.length hst.file
    refine ⟨log.opened (a, fd), hlog.opened (a, fd), ?_, hst.buf, ?_, hst.file_le, ?_⟩
    · exact (congrArg (fileBytes · i) hfs).trans hst.file
    · intro b fd' hmem
      rw [System.fd_put htable]
      split
      · next hd =>
          obtain ⟨rfl, rfl⟩ := hd
          simp [SharedLog.opened, hlen]
      · next hd =>
          have hne : (b, fd') ≠ (a, fd) := by simpa using hd
          simpa [SharedLog.opened, hne] using hst.offset (by simpa [hd] using hmem)
    · intro b fd' hmem
      rw [System.fd_put htable]
      split
      · exact hlen ▸ hst.file_le
      · next hd => exact hst.offset_le (by simpa [hd] using hmem)
  | @wrote s h e a fd buf bytes v wb k hrun hdisk hopen hload hlt hcall hv ih =>
    obtain ⟨log, hlog, hst⟩ := ih
    obtain ⟨total, hw⟩ := (hrun.attached happ).sysWrite hdisk hopen hload hcall hv
    obtain ⟨o, ho⟩ : ∃ o, ((s.tasks a).fdTable fd).offset = o := ⟨_, rfl⟩
    have hle : o ≤ writeBufSize := ho ▸ hst.offset_le hopen
    have hres := hw.result
    have hsum : o + bytes.length < 2 ^ 32 := by
      unfold writeBufSize at hle
      unfold asInt at hres
      split at hres <;> omega
    have htotal : total = o + bytes.length := by
      rw [hw.total_eq, ← Nat.mod_eq_of_lt hsum, ← ho]
      rfl
    have hbuf : wb = stage log.buf log.file o bytes := by
      have hstage := hw.buf (ho ▸ hsum)
      rw [hstage, ← hst.buf, ← hst.file, ← ho]
      rfl
    refine ⟨log.wrote (a, fd) o bytes, hlog.wrote bytes (ho ▸ hst.offset hopen), ?_,
      hbuf, ?_, ?_, ?_⟩
    · rw [SharedLog.wrote, ← hbuf, ← htotal]
      exact hw.file
    · intro b fd' hmem
      have hold : .opened (b, fd') ∈ h := by simpa using hmem
      rw [System.fd_put hw.fdTable]
      split
      · next hd =>
          obtain ⟨rfl, rfl⟩ := hd
          simp [SharedLog.wrote, htotal]
      · next hd =>
          have hne : (b, fd') ≠ (a, fd) := by simpa using hd
          simpa [SharedLog.wrote, hne] using hst.offset hold
    · rw [SharedLog.wrote, length_slice, ← htotal]
      exact hw.total_le
    · intro b fd' hmem
      have hold : .opened (b, fd') ∈ h := by simpa using hmem
      rw [System.fd_put hw.fdTable]
      split
      · exact hw.total_le
      · exact hst.offset_le hold

/-- **Appending through several descriptors.**  The file holds what it held at first and
then all that was written, in order, exactly when every write was made where the last one
had ended; and a file to write to has to fit into `write_buf`. -/
theorem append_keeps_writes (happ : Appendable s₀.fs n i) (horig : contents s₀.fs n = some orig)
    (hrun : AppendRun n s₀ s h) :
    contents s.fs n = some (orig ++ written h) ↔ Complete h ∧
      (Unwritten h ∨ orig.length ≤ writeBufSize) := by
  obtain rfl : fileBytes s₀.fs i = orig := some.inj (happ.contents.symm.trans horig)
  rw [(hrun.attached happ).appendable.contents, some.injEq]
  by_cases hsmall : (fileBytes s₀.fs i).length ≤ writeBufSize
  · obtain ⟨log, hlog, hst⟩ := hrun.log happ hsmall
    rw [hst.file, hlog.file_eq_iff]
    simp [hsmall]
  · simp only [hsmall, or_false]
    obtain ⟨hun, hsame⟩ | ⟨hun, hlen⟩ := hrun.large happ
    · rw [hsame, written_of_unwritten hun]
      simp [hun, complete_of_unwritten hun]
    · refine iff_of_false (fun heq => ?_) fun hc => hun hc.2
      rw [heq, List.length_append] at hlen
      omega

end

/-! ## two descriptors -/

/-- Task `a` opens "/a" for appending. -/
def appending (s : System) (a : Nat) : System :=
  (s.onTask a).put (sysOpenW ((s.onTask a).kernel ⟨0, onesMachine, []⟩)
    (s.tasks a).cwd pathA true).2

/-- Two tasks have opened "/a". -/
def twoAppending : System := appending (appending (bootSystem dirA) 2) 3

theorem appendable_dirA : Appendable (bootSystem dirA).fs pathA 0 := by
  refine ⟨rfl, by decide, ?_, ?_, ?_, ?_⟩ <;> decide +kernel

theorem run_twoAppending :
    AppendRun pathA (bootSystem dirA) twoAppending [.opened (3, 3), .opened (2, 3)] := by
  have hfirst : AppendRun pathA (bootSystem dirA) (appending (bootSystem dirA) 2)
      [.opened (2, 3)] :=
    .opened ⟨0, onesMachine, []⟩ 2 pathA 3 _ .start rfl (CStr.ext (by decide +kernel))
      (Prod.ext (by decide +kernel) rfl)
  exact .opened ⟨0, onesMachine, []⟩ 3 pathA 3 _ hfirst rfl (CStr.ext (by decide +kernel))
    (Prod.ext (by decide +kernel) rfl)

theorem loads_onesMachine : Loads onesMachine 256 [1] := by
  intro j hj
  obtain rfl : j = 0 := by simpa using hj
  show kload8 onesMachine 256 = some 1
  decide +kernel

def SysResult.isOne : SysResult → Bool
  | .returned v => v == 1
  | .waiting _ => false

/-- A test on a call that returns 1. -/
theorem exists_returned_one {x : Option (SysResult × Bytes × Kernel)} {p : Bytes × Kernel → Bool}
    (h : x.any (fun r => r.1.isOne && p r.2)) :
    ∃ wb k, x = some (.returned 1, wb, k) ∧ p (wb, k) := by
  obtain _ | ⟨v | m, wb, k⟩ := x
  · simp at h
  · simp only [any_some, Bool.and_eq_true, SysResult.isOne, beq_iff_eq] at h
    exact ⟨wb, k, by rw [h.1], h.2⟩
  · simp [SysResult.isOne] at h

/-- The first of the two writes a byte. -/
theorem append_keeps_writes_one : ∃ s, AppendRun pathA (bootSystem dirA) s
      [.wrote (2, 3) [1], .opened (3, 3), .opened (2, 3)] ∧
    contents (bootSystem dirA).fs pathA = some [0] ∧ contents s.fs pathA = some [0, 1] := by
  obtain ⟨wb, k, hcall, -⟩ := exists_returned_one (p := fun _ => true)
    (show (sysWrite ((twoAppending.onTask 2).kernel ⟨0, onesMachine, []⟩) twoAppending.writeBuf 3
      256 1).any _ =
      true by decide +kernel)
  have hrun := run_twoAppending.wrote ⟨0, onesMachine, []⟩ 2 3 256 [1] 1 wb k rfl (by simp)
    loads_onesMachine
    (by decide) hcall (by decide)
  have horig : contents (bootSystem dirA).fs pathA = some [0] := by decide +kernel
  refine ⟨_, hrun, horig, ?_⟩
  exact (append_keeps_writes appendable_dirA horig hrun).mpr
    ⟨by simp [Complete, UpToDate], .inr (by decide)⟩

/-- Each of the two writes a byte: the file has grown by one byte. -/
theorem append_loses_write : ∃ s h, AppendRun pathA (bootSystem dirA) s h ∧
    h = [.wrote (3, 3) [1], .wrote (2, 3) [1], .opened (3, 3), .opened (2, 3)] ∧
    contents (bootSystem dirA).fs pathA = some [0] ∧ [0] ++ written h = [0, 1, 1] ∧
    contents s.fs pathA = some [0, 1] := by
  have hany : (sysWrite ((twoAppending.onTask 2).kernel ⟨0, onesMachine, []⟩)
      twoAppending.writeBuf 3 256 1).any
      (fun r => r.1.isOne &&
        (sysWrite ((((twoAppending.onTask 2).put r.2.2).onTask 3).kernel ⟨0, onesMachine, []⟩)
          r.2.1 3 256 1).any
          fun r' => r'.1.isOne && decide (contents r'.2.2.fs pathA = some [0, 1])) =
            true := by decide +kernel
  obtain ⟨wb, k, hcall, hrest⟩ :=
    exists_returned_one (p := fun r => (sysWrite ((((twoAppending.onTask 2).put
    r.2).onTask 3).kernel ⟨0, onesMachine, []⟩) r.1 3 256 1).any
      fun r' => r'.1.isOne && decide (contents r'.2.2.fs pathA = some [0, 1])) hany
  obtain ⟨wb', k', hcall', hdata⟩ := exists_returned_one
    (p := fun r => decide (contents r.2.fs pathA = some [0, 1])) hrest
  have hfirst := run_twoAppending.wrote ⟨0, onesMachine, []⟩ 2 3 256 [1] 1 wb k rfl (by simp)
    loads_onesMachine
    (by decide) hcall (by decide)
  have hrun := hfirst.wrote ⟨0, onesMachine, []⟩ 3 3 256 [1] 1 wb' k' rfl (by simp)
    loads_onesMachine
    (by decide) hcall' (by decide)
  exact ⟨_, _, hrun, rfl, by decide +kernel, rfl, of_decide_eq_true hdata⟩

end AliOS
