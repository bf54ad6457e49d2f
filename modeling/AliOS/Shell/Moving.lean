import AliOS.Shell.Namespace
import AliOS.System.Append

/-!
# AliOS.Shell.Moving

What `mv` does to the files.  It reads the source, writes its bytes under the path of the
destination and deletes the entry it finds under the path of the source.  That moves the
file when the two paths differ, the new one fits into a directory entry and the old one is
the name of one entry only.  When both paths are the same, the file that has just been
written is the one that is deleted.

`MvRun` has the three calls, `HoldsName` (`AliOS.Alfs.Namespace`) the entries of a name
before and after each.
-/

namespace AliOS

open Lib

variable {d slot j : Nat}

/-! ## the property and the condition -/

/-- The file `srcp` has become the file `dstp`, and everything else is as it was. -/
structure Moved (fs fs' : Fs) (srcp dstp : CStr) : Prop where
  there : 0 ≤ alfsFind fs' (some dstp)
  bytes : contents fs' dstp = contents fs srcp
  gone : srcp = dstp ∨ alfsFind fs' (some srcp) < 0
  others : ∀ j < alfsMaxFiles, (j : Int) ≠ alfsFind fs (some srcp) →
    (j : Int) ≠ alfsFind fs' (some dstp) →
    entryUsed fs'.dir j = entryUsed fs.dir j ∧ (entryUsed fs.dir j = true →
      entryPath fs'.dir j = entryPath fs.dir j ∧
        ∀ max, (alfsRead fs'.quiet j max).1 = (alfsRead fs.quiet j max).1)

/-- At most one entry is in use under the name `p`. -/
def Once (dir : Bytes) (p : CStr) : Prop := ∀ a b, HoldsName dir a p → HoldsName dir b p → a = b

/-- What `mv` needs: different paths, a new one that fits into an entry, an old one that is the
name of one entry, names with their terminator, and room for the copy clear of all files. -/
structure MvSafe (fs : Fs) (srcp dstp : CStr) : Prop where
  ne : srcp ≠ dstp
  short : dstp.length < alfsNameMax
  once : Once fs.dir srcp
  terminated : Terminated fs.dir
  clear : ∀ slot base, Chosen fs.dir dstp slot base →
    Clear base (alfsSize fs (alfsFind fs (some srcp)))

/-! ## the three calls -/

/-- `mv` has found the source in slot `i` and read `buf` from it, leaving `fs₁`; it has written
the destination, leaving `fs₂`, and deleted the source. -/
structure MvRun (fs : Fs) (srcp dstp : CStr) (i : Nat) (buf : List UInt8)
    (fs₁ fs₂ fs' : Fs) : Prop where
  ready : fs.ready = true
  found : findEntry fs.dir srcp = some i
  read : alfsRead fs i (entrySize fs.dir i) = (some buf, fs₁)
  wrote : 0 ≤ (alfsWrite fs₁ (some dstp) (some (ofList buf)) (buf.length % 2 ^ 32)).1
  write : fs₂ = (alfsWrite fs₁ (some dstp) (some (ofList buf)) (buf.length % 2 ^ 32)).2
  delete : fs' = (alfsDelete fs₂ (some srcp)).2

section

variable {fs fs₁ fs₂ fs' : Fs} {cwd src dst srcp dstp : CStr} {mem : Bool} {i : Nat}
  {buf : List UInt8}

/-- A command that reports no error has made the three calls. -/
theorem cmdMv_run (h : cmdMv fs cwd src dst mem = (none, fs')) :
    ∃ i buf fs₁ fs₂, MvRun fs (pathResolve cwd src) (pathResolve cwd dst) i buf fs₁ fs₂ fs' := by
  unfold cmdMv at h
  split at h
  · simp at h
  dsimp only at h
  split at h
  · simp at h
  rename_i hfound
  split at h
  · simp at h
  obtain ⟨i, hready, hfind, hidx⟩ := alfsFind_nonneg hfound
  rw [hidx] at h
  unfold copyFile at h
  rw [alfsSize_of_found hready hfind] at h
  split at h <;> rename_i heq
  · simp at h
  · obtain ⟨-, rfl⟩ := Prod.mk.inj h
    split at heq
    · simp at heq
    · split at heq
      · simp at heq
      · rename_i buf fs₁ hread
        split at heq
        · simp at heq
        · obtain ⟨hret, rfl⟩ := Prod.mk.inj heq
          have hwrote : ¬(alfsWrite fs₁ (some (pathResolve cwd dst)) (some fun k => buf.getD k 0)
              (buf.length % 2 ^ 32)).1 < 0 := by
            intro hneg
            rw [if_pos hneg] at hret
            cases hret
          exact ⟨i, buf, fs₁, _, hready, hfind, hread, Int.not_lt.mp hwrote, rfl, rfl⟩

/-- What is deleted is one entry, and no file loses a byte. -/
theorem alfsDelete_found {n : CStr} (hready : fs.ready) (hfind : findEntry fs.dir n = some d) :
    (∀ j ≠ d, SameEntry fs.dir (alfsDelete fs (some n)).2.dir j) ∧
    entryUsed (alfsDelete fs (some n)).2.dir d = false ∧
    ∀ a, 512 * alfsDataStart ≤ a → (alfsDelete fs (some n)).2.disk.data a = fs.disk.data a := by
  obtain ⟨-, hno⟩ | ⟨n', d', hn, -, hfind', ok, fs', hflush, heq⟩ := alfsDelete_cases fs (some n)
  · exact absurd hfind (by simp [hno hready n rfl])
  · cases hn
    obtain rfl := Option.some.inj (hfind'.symm.trans hfind)
    have hlt := (findEntry_eq_some.mp hfind).1
    obtain ⟨hout, -, hdir, -, -⟩ := dirFlushSlot_spec { fs with dir := setFlags fs.dir d' 0 } hlt
    rw [hflush] at hout hdir
    rw [heq]
    dsimp only at hdir ⊢
    refine ⟨fun j hj k hk => ?_, ?_, fun a ha => hout a ?_⟩
    · rw [hdir, setFlags_of_notMem (by omega)]
    · rw [hdir]
      exact entryUsed_setFlags_zero _ _
    · unfold alfsDataStart at ha
      unfold alfsMaxFiles at hlt
      omega

/-! ## the entries -/

/-- The slots of the copy and of the entry that is deleted, and what stays as it was. -/
structure MvSlots (fs fs₂ fs' : Fs) (srcp dstp : CStr) (slot d : Nat) (base : Bytes) : Prop where
  chosen : Chosen fs.dir dstp slot base
  copied : HoldsName fs₂.dir slot (dstp.take (alfsNameMax - 1))
  kept : ∀ j ≠ slot, SameEntry fs.dir fs₂.dir j
  deleted : HoldsName fs₂.dir d srcp
  freed : entryUsed fs'.dir d = false
  left : ∀ j ≠ d, SameEntry fs₂.dir fs'.dir j
  data : ∀ a, 512 * alfsDataStart ≤ a → fs'.disk.data a = fs₂.disk.data a

/-- A slot `alfs_write` has chosen is not in use, or has its name. -/
theorem Chosen.holdsName {base : Bytes} {n p : CStr} (h : Chosen fs.dir n slot base)
    (hterm : Terminated fs.dir) (hp : HoldsName fs.dir slot p) : p = n := by
  obtain ⟨hf, -, -⟩ | ⟨-, hf, -⟩ := h
  · exact hp.name.symm.trans (hterm.findEntry_eq_some.mp hf).1.name
  · have hused := hp.used
    simp [(firstUnused_eq_some.mp hf).2.1] at hused

section

variable (h : MvRun fs srcp dstp i buf fs₁ fs₂ fs')

include h

theorem MvRun.frame₁ : fs₁.ready = fs.ready ∧ fs₁.dir = fs.dir := by
  have hframe := alfsRead_frame fs i (entrySize fs.dir i)
  rwa [h.read] at hframe

theorem MvRun.terminated₂ (hterm : Terminated fs.dir) :
    Terminated fs₂.dir := by
  rw [h.write]
  exact Terminated.write (h.frame₁.2 ▸ hterm) dstp _ (by omega)

theorem MvRun.ready₂ : fs₂.ready := by
  rw [h.write, alfsWrite_ready, h.frame₁.1, h.ready]

theorem MvRun.terminated' (hterm : Terminated fs.dir) :
    Terminated fs'.dir := by
  rw [h.delete]
  exact (h.terminated₂ hterm).delete _

theorem MvRun.ready' : fs'.ready := by
  rw [h.delete]
  exact (alfsDelete_slot fs₂ (some srcp) 0).1.trans h.ready₂

/-- The source is there when it is to be deleted: where it was, or as the copy. -/
theorem MvRun.slots (hterm : Terminated fs.dir) :
    ∃ slot d base, MvSlots fs fs₂ fs' srcp dstp slot d base := by
  obtain ⟨-, hdir⟩ := h.frame₁
  have hsize : buf.length % 2 ^ 32 < 2 ^ 32 := Nat.mod_lt _ (by decide)
  obtain ⟨slot, base, hch, hfile, hname⟩ := alfsWrite_written hsize h.wrote
  have hkept : ∀ j ≠ slot, SameEntry fs₁.dir fs₂.dir j := by
    intro j hj
    rw [h.write]
    obtain hsame | ⟨base', hch', -⟩ := alfsWrite_slot fs₁ dstp (some (ofList buf)) hsize j
    · exact hsame
    · exact absurd (hch.unique hch').1 hj
  rw [← h.write] at hfile hname
  rw [hdir] at hch hkept
  have hcopied : HoldsName fs₂.dir slot (dstp.take (alfsNameMax - 1)) :=
    ⟨hch.lt, hfile.1, CStr.ext hname⟩
  obtain ⟨hsrc, -⟩ := hterm.findEntry_eq_some.mp h.found
  have hstill : ∃ j, HoldsName fs₂.dir j srcp := by
    by_cases his : i = slot
    · subst his
      obtain rfl := hch.holdsName hterm hsrc
      have hfits : srcp.length < alfsNameMax := hsrc.name ▸ hterm i hsrc.lt hsrc.used
      rw [CStr.take_of_length_le (Nat.le_sub_one_of_lt hfits)] at hcopied
      exact ⟨i, hcopied⟩
    · exact ⟨i, (hkept i his).holdsName.mpr hsrc⟩
  obtain ⟨d, hd⟩ : ∃ d, findEntry fs₂.dir srcp = some d := by
    refine Option.ne_none_iff_exists'.mp fun hnone => ?_
    obtain ⟨j, hj⟩ := hstill
    exact (h.terminated₂ hterm).findEntry_eq_none.mp hnone j hj
  obtain ⟨hleft, hfreed, hdata⟩ := alfsDelete_found h.ready₂ hd
  rw [← h.delete] at hleft hfreed hdata
  exact ⟨slot, d, base, hch, hcopied, hkept, ((h.terminated₂ hterm).findEntry_eq_some.mp hd).1,
    hfreed, hleft, hdata⟩

end

theorem MvSlots.after {base : Bytes} (h : MvSlots fs fs₂ fs' srcp dstp slot d base) {p : CStr} :
    HoldsName fs'.dir j p ↔ j ≠ d ∧ HoldsName fs₂.dir j p := by
  by_cases hj : j = d
  · subst hj
    refine iff_of_false (fun hh => ?_) fun hh => hh.1 rfl
    have hused := hh.used
    simp [h.freed] at hused
  · rw [(h.left j hj).holdsName]
    exact (and_iff_right hj).symm

theorem MvSlots.ne_slot {base : Bytes} (h : MvSlots fs fs₂ fs' srcp dstp slot d base)
    (hterm : Terminated fs.dir) (hne : srcp ≠ dstp) (hj : HoldsName fs.dir j srcp) : j ≠ slot := by
  rintro rfl
  exact hne (h.chosen.holdsName hterm hj)

theorem findEntry_of_alfsFind_neg {n : CStr} (hready : fs.ready) (h : alfsFind fs (some n) < 0) :
    findEntry fs.dir n = none := by
  refine Option.eq_none_iff_forall_ne_some.mpr fun j hj => ?_
  rw [alfsFind_of_found hready hj] at h
  omega

/-! ## when a file is moved -/

/-- Where names have their terminator, only a path that fits is found again; one entry of the old
name is deleted, and that is the new one if the paths are the same. -/
theorem MvRun.safe_of_moved (h : MvRun fs srcp dstp i buf fs₁ fs₂ fs') (hterm : Terminated fs.dir)
    (hmoved : Moved fs fs' srcp dstp) :
    dstp.length < alfsNameMax ∧ (srcp ≠ dstp ↔ Once fs.dir srcp) := by
  obtain ⟨slot, d, base, hs⟩ := h.slots hterm
  obtain ⟨k, -, hfind, -⟩ := alfsFind_nonneg (Int.not_lt.mpr hmoved.there)
  obtain ⟨hk, -⟩ := (h.terminated' hterm).findEntry_eq_some.mp hfind
  refine ⟨hk.name ▸ h.terminated' hterm k hk.lt hk.used, fun hne a b ha hb => ?_, ?_⟩
  · have hnone := findEntry_of_alfsFind_neg h.ready' (hmoved.gone.resolve_left hne)
    have hdeleted : ∀ j, HoldsName fs.dir j srcp → j = d := by
      intro j hj
      by_contra hjd
      have hstill := (hs.kept j (hs.ne_slot hterm hne hj)).holdsName.mpr hj
      exact (h.terminated' hterm).findEntry_eq_none.mp hnone j (hs.after.mpr ⟨hjd, hstill⟩)
    exact (hdeleted a ha).trans (hdeleted b hb).symm
  · rintro honce rfl
    have hslot : slot = i := by
      obtain ⟨hf, -, -⟩ | ⟨hf, -, -⟩ := hs.chosen
      · exact Option.some.inj (hf.symm.trans h.found)
      · simp [h.found] at hf
    have honly : ∀ j, HoldsName fs₂.dir j srcp → j = i := by
      intro j hj
      by_cases hjs : j = slot
      · exact hjs.trans hslot
      · exact honce j i ((hs.kept j hjs).holdsName.mp hj) (hterm.findEntry_eq_some.mp h.found).1
    obtain ⟨hkd, hk2⟩ := hs.after.mp hk
    exact hkd ((honly k hk2).trans (honly d hs.deleted).symm)

/-- What is read is the whole file. -/
theorem MvRun.read_all (h : MvRun fs srcp dstp i buf fs₁ fs₂ fs') {base : Bytes}
    (hch : Chosen fs.dir dstp slot base) (hclear : Clear base (entrySize fs.dir i))
    (hne : i ≠ slot) :
    contents fs srcp = some buf ∧ buf.length = entrySize fs.dir i := by
  obtain ⟨hi, hu, -⟩ := findEntry_eq_some.mp h.found
  obtain ⟨hread, -⟩ := alfsRead_of_some h.read
  refine ⟨?_, ?_⟩
  · rw [contents, alfsFind_of_found h.ready h.found, alfsSize_of_found h.ready h.found]
    exact hread
  · obtain hz | ⟨-, hend⟩ := hclear.behind hch hi hu hne
    · rw [alfsRead_empty fs.quiet h.ready hi hu hz] at hread
      rw [← Option.some.inj hread, hz]
      rfl
    · have hroom := hclear.2
      rw [alfsRead_quiet fs.quiet rfl h.ready hi hu (show _ ≤ 2 ^ 28 from by
        show entryStart fs.dir i + sectorsOf (entrySize fs.dir i) ≤ 2 ^ 28
        omega)] at hread
      rw [← Option.some.inj hread, length_slice]
      exact Nat.min_self _

/-- Under the condition the copy goes into another slot and is found there, and the source is the
entry that is deleted. -/
structure MvCopied (fs fs₁ fs₂ fs' : Fs) (srcp dstp : CStr) (i slot : Nat) (base : Bytes)
    (buf : List UInt8) : Prop extends MvSlots fs fs₂ fs' srcp dstp slot i base where
  ne : i ≠ slot
  clear : Clear base (entrySize fs.dir i)
  source : contents fs srcp = some buf
  written : FileWritten fs₁ fs₂ dstp slot base (ofList buf) buf.length
  only : ∀ j, HoldsName fs₂.dir j srcp → j = i

theorem MvRun.copied (h : MvRun fs srcp dstp i buf fs₁ fs₂ fs') (hsafe : MvSafe fs srcp dstp) :
    ∃ slot base, MvCopied fs fs₁ fs₂ fs' srcp dstp i slot base buf := by
  have hterm := hsafe.terminated
  obtain ⟨slot, d, base, hs⟩ := h.slots hterm
  obtain ⟨hsrc, -⟩ := hterm.findEntry_eq_some.mp h.found
  have hne : i ≠ slot := hs.ne_slot hterm hsafe.ne hsrc
  have hclear := hsafe.clear slot base hs.chosen
  rw [alfsFind_of_found h.ready h.found, alfsSize_of_found h.ready h.found] at hclear
  obtain ⟨hcontents, hlength⟩ := h.read_all hs.chosen hclear hne
  have hlt : buf.length < 2 ^ 32 := hlength ▸ load32_lt _ _
  have hw : FileWritten fs₁ fs₂ dstp slot base (ofList buf) buf.length := by
    have hwrote := h.wrote
    rw [Nat.mod_eq_of_lt hlt] at hwrote
    rw [h.write, Nat.mod_eq_of_lt hlt]
    exact Chosen.written (h.frame₁.2 ▸ hs.chosen) hsafe.short hlt (hlength ▸ hclear.2) hwrote
  obtain ⟨hcopy, -⟩ := (h.terminated₂ hterm).findEntry_eq_some.mp hw.found
  have honly : ∀ j, HoldsName fs₂.dir j srcp → j = i := by
    intro j hj
    have hjs : j ≠ slot := by
      rintro rfl
      exact hsafe.ne (hj.name.symm.trans hcopy.name)
    exact hsafe.once j i ((hs.kept j hjs).holdsName.mp hj) hsrc
  obtain rfl := honly d hs.deleted
  exact ⟨slot, base, hs, hne, hclear, hcontents, hw, honly⟩

section

variable {slot : Nat} {base : Bytes}

section

variable (hc : MvCopied fs fs₁ fs₂ fs' srcp dstp i slot base buf)

include hc

/-- The copy is found under its path, and nothing under the old one. -/
theorem MvCopied.found (hterm2 : Terminated fs₂.dir)
    (hterm' : Terminated fs'.dir) : findEntry fs'.dir dstp = some slot ∧
      findEntry fs'.dir srcp = none := by
  obtain ⟨hcopy, hfirst⟩ := hterm2.findEntry_eq_some.mp hc.written.found
  refine ⟨hterm'.findEntry_eq_some.mpr ⟨hc.after.mpr ⟨hc.ne.symm, hcopy⟩, fun j hj hh => ?_⟩,
    hterm'.findEntry_eq_none.mpr fun j hh => ?_⟩
  · exact hfirst j hj (hc.after.mp hh).2
  · obtain ⟨hji, hj⟩ := hc.after.mp hh
    exact hji (hc.only j hj)

/-- It has the bytes of the source. -/
theorem MvCopied.contents (hready : fs'.ready)
    (hfound : findEntry fs'.dir dstp = some slot) (hlength : buf.length = entrySize fs.dir i) :
    contents fs' dstp = some buf := by
  obtain ⟨hst, hsz, -⟩ := entry_congr (hc.left slot hc.ne.symm)
  rw [hc.written.start] at hst
  rw [hc.written.length] at hsz
  have hroom := hc.clear.2
  have hsectors := sectorsOf_le_writtenSectors (entrySize fs.dir i)
  rw [contents_of_found hready hfound (by rw [hst, hsz, hlength]; omega)]
  have hbytes := hc.written.bytes
  rw [slice_ofList, fileBytes, hc.written.start, hc.written.length] at hbytes
  rw [fileBytes, hst, hsz]
  refine congrArg some ((slice_congr fun k _ => hc.data _ ?_).trans hbytes)
  have hlow := dataStart_le_highWater base
  omega

/-- The other entries have the bytes they had. -/
theorem MvCopied.others (hready : fs.ready)
    (hready' : fs'.ready) (hread : fs₁.quiet = fs.quiet) (hj : j < alfsMaxFiles) (hji : j ≠ i)
    (hjs : j ≠ slot) :
    entryUsed fs'.dir j = entryUsed fs.dir j ∧ (entryUsed fs.dir j →
      entryPath fs'.dir j = entryPath fs.dir j ∧
        ∀ max, (alfsRead fs'.quiet j max).1 = (alfsRead fs.quiet j max).1) := by
  have hsame : SameEntry fs.dir fs'.dir j :=
    fun k hk => (hc.left j hji k hk).trans (hc.kept j hjs k hk)
  have hdata1 : fs₁.quiet.disk.data = fs.quiet.disk.data := by rw [hread]
  refine ⟨hsame.flags.1, fun hu => ⟨hsame.entryPath, fun max => ?_⟩⟩
  refine hc.clear.read_eq hready hready' hc.chosen hsame (fun a hlo hhi => ?_) hj hu hjs max
  rw [hc.data a hlo, hc.written.frame a hlo hhi]
  exact congrFun hdata1 a

end

end

/-- Under the condition the file is moved. -/
theorem MvRun.moved (h : MvRun fs srcp dstp i buf fs₁ fs₂ fs') (hsafe : MvSafe fs srcp dstp) :
    Moved fs fs' srcp dstp := by
  obtain ⟨slot, base, hc⟩ := h.copied hsafe
  obtain ⟨hfound, hgone⟩ :=
    hc.found (h.terminated₂ hsafe.terminated) (h.terminated' hsafe.terminated)
  have hfind := alfsFind_of_found h.ready' hfound
  have hlength := (h.read_all hc.chosen hc.clear hc.ne).2
  refine ⟨by omega, ?_, .inr ?_, fun j hj hji hjs => ?_⟩
  · rw [hc.contents h.ready' hfound hlength, hc.source]
  · simp [alfsFind, h.ready', hgone, slotOrFail]
  · rw [alfsFind_of_found h.ready h.found] at hji
    exact hc.others h.ready h.ready' (alfsRead_of_some h.read).2 hj (by omega) (by omega)

/-- **Moving a file.**  A command that reports no error has moved the file if the two paths differ,
the new one fits into an entry, the old one is the name of one entry, and the copy is clear of
all files.  Where names have their terminator, a file that has been moved has a path that fits,
and the paths differ exactly if the old one was the name of one entry. -/
theorem cmdMv_moves (h : cmdMv fs cwd src dst mem = (none, fs')) :
    (MvSafe fs (pathResolve cwd src) (pathResolve cwd dst) →
      Moved fs fs' (pathResolve cwd src) (pathResolve cwd dst)) ∧
    (Terminated fs.dir → Moved fs fs' (pathResolve cwd src) (pathResolve cwd dst) →
      (pathResolve cwd dst).length < alfsNameMax ∧
      (pathResolve cwd src ≠ pathResolve cwd dst ↔ Once fs.dir (pathResolve cwd src))) := by
  obtain ⟨i, buf, fs₁, fs₂, hrun⟩ := cmdMv_run h
  exact ⟨hrun.moved, hrun.safe_of_moved⟩

end

/-! ## a file of one byte -/

/-- `mv /a /b`. -/
theorem cmdMv_moves_pathA : ∃ fs', cmdMv (blankFs dirA) rootPath pathA pathB true = (none, fs') ∧
    MvSafe (blankFs dirA) (pathResolve rootPath pathA) (pathResolve rootPath pathB) ∧
    Moved (blankFs dirA) fs' (pathResolve rootPath pathA) (pathResolve rootPath pathB) := by
  have hrun : cmdMv (blankFs dirA) rootPath pathA pathB true = (none, _) :=
    Prod.ext (by decide +kernel) rfl
  have honly : ∀ i < alfsMaxFiles, entryUsed dirA i = true → i = 0 := by decide +kernel
  have hchosen : Chosen dirA (pathResolve rootPath pathB) 1 dirA :=
    .inr ⟨by decide +kernel, by decide +kernel, rfl⟩
  have hclear : Clear dirA (alfsSize (blankFs dirA)
      (alfsFind (blankFs dirA) (some (pathResolve rootPath pathA)))) :=
    ⟨by decide +kernel, by decide +kernel⟩
  have hsafe : MvSafe (blankFs dirA) (pathResolve rootPath pathA) (pathResolve rootPath pathB) := by
    refine ⟨by decide +kernel, by decide +kernel, fun a b ha hb => ?_, terminated_dirA,
      fun slot base hch => ?_⟩
    · exact (honly a ha.lt ha.used).trans (honly b hb.lt hb.used).symm
    · obtain ⟨-, rfl⟩ := hchosen.unique hch
      exact hclear
  exact ⟨_, hrun, hsafe, (cmdMv_moves hrun).1 hsafe⟩

/-- `mv /a /a` reports no error, and the file is gone. -/
theorem cmdMv_deletes_file : ∃ fs', cmdMv (blankFs dirA) rootPath pathA pathA true = (none, fs') ∧
    contents (blankFs dirA) (pathResolve rootPath pathA) = some [0] ∧
    alfsFind fs' (some (pathResolve rootPath pathA)) = -1 ∧
    ¬Moved (blankFs dirA) fs' (pathResolve rootPath pathA) (pathResolve rootPath pathA) := by
  have hrun : cmdMv (blankFs dirA) rootPath pathA pathA true = (none, _) :=
    Prod.ext (by decide +kernel) rfl
  have hgone : alfsFind (cmdMv (blankFs dirA) rootPath pathA pathA true).2
      (some (pathResolve rootPath pathA)) = -1 := by decide +kernel
  refine ⟨_, hrun, by decide +kernel, hgone, fun hmoved => ?_⟩
  have hthere := hmoved.there
  rw [hgone] at hthere
  simp at hthere

end AliOS
