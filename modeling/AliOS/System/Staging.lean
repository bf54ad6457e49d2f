import AliOS.Alfs.Namespace
import AliOS.Syscall.WriteBuf
import AliOS.System.Writing

/-!
# AliOS.System.Staging

What `sys_write` takes over from earlier calls.  All files are written through `write_buf`,
which keeps what was in it: `file_write` reads the old bytes up to the offset of the
descriptor into it, puts the new ones behind them, and writes the whole to the file.  Once
another descriptor has made the file shorter than the offset, the bytes in between are
those of some other call.

Two calls are compared that find the same state but for `write_buf`.  The buffer of the
caller is taken to lie outside `write_buf`.
-/

namespace AliOS

open Lib Function Option

/-! ## the property -/

/-- The name of the file behind a descriptor. -/
def Kernel.fdName (k : Kernel) (fd : Nat) : CStr :=
  entryPath k.fs.dir (k.current.fdTable fd).alfsIdx.toNat

/-- Successful calls that differ in `write_buf` only leave the same contents in the file. -/
def Kernel.WritesAlike (k : Kernel) (fd buf len : Nat) : Prop :=
  ∀ wb wb' r r', sysWrite k wb fd buf len = some r → sysWrite k wb' fd buf len = some r' →
    r.1 = .returned (asInt len) → r'.1 = .returned (asInt len) →
    contents r.2.2.fs (k.fdName fd) = contents r'.2.2.fs (k.fdName fd)

/-- All of `write_buf` that is written to the file is filled in before: the file reaches up to
the offset of the descriptor, or the new bytes go round the whole address space. -/
def Kernel.Refills (k : Kernel) (fd len : Nat) : Prop :=
  (k.current.fdTable fd).offset ≤ alfsSize k.fs (k.current.fdTable fd).alfsIdx ∨
    2 ^ 32 ≤ (k.current.fdTable fd).offset + len

section

variable {k : Kernel} {wb wb' : Bytes} {fd buf len off n : Nat} {idx : Int}

/-! ## two calls in step -/

/-- What `alfs_pread` does to `write_buf` is the same, and it fills it up to the offset if the
file is long enough. -/
theorem Kernel.stageOld_rel (k : Kernel) (wb wb' : Bytes) (idx : Int) (off : Nat) :
    (k.stageOld wb idx off).1 = (k.stageOld wb' idx off).1 ∧
    (k.stageOld wb idx off).2.2 = (k.stageOld wb' idx off).2.2 ∧
    ((k.stageOld wb idx off).1 → off ≤ alfsSize k.fs idx →
      ∀ j < off, (k.stageOld wb idx off).2.1 j = (k.stageOld wb' idx off).2.1 j) := by
  unfold Kernel.stageOld
  split
  · refine ⟨rfl, rfl, fun hok hsize j hj => ?_⟩
    have hlen := (length_alfsPread k.fs idx off 0).2 (of_decide_eq_true hok)
    have hin : 0 ≤ j ∧ j < 0 + (alfsPread k.fs idx off 0).1.2.length := by omega
    dsimp only
    rw [blit_of_mem hin, blit_of_mem hin]
  · exact ⟨rfl, rfl, fun _ _ j hj => by omega⟩

/-- The loop stores the same bytes at the same places. -/
theorem stageNew_rel (m : Machine) (buf off len : Nat) (wb wb' : Bytes) :
    Option.Rel (fun w w' : Bytes => ∀ j, (wb j = wb' j ∨ ∃ i < len, j = (off + i) % 2 ^ 32) →
      w j = w' j)
      (stageNew m buf off len wb) (stageNew m buf off len wb') := by
  have hloop := forRangeM_rel_at (a := 0) (n := len) (s := wb) (t := wb')
    (f := fun i wb => (kload8 m ((buf + i) % 2 ^ 32)).map (update wb ((off + i) % 2 ^ 32)))
    (g := fun i wb => (kload8 m ((buf + i) % 2 ^ 32)).map (update wb ((off + i) % 2 ^ 32)))
    (fun n w w' => ∀ j, (wb j = wb' j ∨ ∃ i < n, j = (off + i) % 2 ^ 32) → w j = w' j)
    (by simp) fun i w w' _ _ hw => ?_
  · rwa [Nat.zero_add] at hloop
  · cases kload8 m ((buf + i) % 2 ^ 32) with
    | none => exact .none
    | some b =>
      refine .some fun j hj => ?_
      rw [update_apply, update_apply]
      split
      · rfl
      · next hne =>
          refine hw j (hj.imp_right ?_)
          rintro ⟨a, ha, rfl⟩
          exact ⟨a, by grind, rfl⟩

/-- The end of `file_write` depends on the bytes that go into the file, and its result on none. -/
theorem Kernel.storeFile_rel (k : Kernel) (wb wb' : Bytes) (fd total len : Nat) :
    (k.storeFile wb fd total len).1 = (k.storeFile wb' fd total len).1 ∧
      ((∀ j < total, wb j = wb' j) →
        k.storeFile wb fd total len = k.storeFile wb' fd total len) := by
  unfold Kernel.storeFile
  dsimp only
  split
  · exact ⟨rfl, fun _ => rfl⟩
  · next bytes size _ =>
      have hret := alfsWrite_returns_congr k.fs (CStr.ofBytes bytes) wb wb' total
      refine ⟨?_, fun hsame => ?_⟩
      · rw [hret]
        split <;> rfl
      · rw [alfsWrite_congr k.fs (some (CStr.ofBytes bytes)) hsame]

/-- Two calls of `file_write` return the same, and leave the same state if all of `write_buf` is
filled in. -/
theorem Kernel.fileWrite_rel (hoff : (k.current.fdTable fd).offset < 2 ^ 32) (hlen : len < 2 ^ 32)
    (wb wb' : Bytes) (buf : Nat) :
    Option.Rel (fun r r' => r.1 = r'.1 ∧ (k.Refills fd len → r.2.2 = r'.2.2))
      (k.fileWrite wb fd buf len) (k.fileWrite wb' fd buf len) := by
  obtain ⟨hok, hstate, hold⟩ :=
    k.stageOld_rel wb wb' (k.current.fdTable fd).alfsIdx (k.current.fdTable fd).offset
  unfold Kernel.fileWrite
  dsimp only
  split
  · exact .some ⟨rfl, fun _ => rfl⟩
  · next htotal =>
      rcases hs : k.stageOld wb (k.current.fdTable fd).alfsIdx
        (k.current.fdTable fd).offset with ⟨ok, wb1, k₁⟩
      rcases hs' : k.stageOld wb' (k.current.fdTable fd).alfsIdx
        (k.current.fdTable fd).offset with ⟨ok', wb1', k1'⟩
      rw [hs, hs'] at hok hstate hold
      subst hok hstate
      cases ok with
      | false => exact .some ⟨rfl, fun _ => rfl⟩
      | true =>
        refine rel_map (stageNew_rel k₁.machine buf _ len wb1 wb1') fun w w' hw => ?_
        obtain ⟨hret, hsame⟩ := k₁.storeFile_rel w w' fd
          (((k.current.fdTable fd).offset + len) % 2 ^ 32) len
        refine ⟨hret, fun hrefills => ?_⟩
        rw [hsame fun j hj => hw j ?_]
        obtain hsize | hwrap := hrefills
        · by_cases hj' : j < (k.current.fdTable fd).offset
          · exact .inl (hold rfl hsize j hj')
          · exact .inr ⟨j - (k.current.fdTable fd).offset, by omega, by omega⟩
        · exact .inr ⟨2 ^ 32 - (k.current.fdTable fd).offset + j, by omega, by omega⟩

/-! ## what is left in the file -/

/-- A call that has written the file has written `write_buf` as it leaves it. -/
theorem Kernel.fileWrite_contents {r : Int × Bytes × Kernel}
    (h : k.fileWrite wb fd buf len = some r)
    (hret : r.1 ≠ -1) (hterm : Terminated k.fs.dir)
    (hroom : highWater k.fs.dir + sectorsOf writeBufSize ≤ 2 ^ 28) :
    contents r.2.2.fs (k.fdName fd) =
      some (slice r.2.1 0 (((k.current.fdTable fd).offset + len) % 2 ^ 32)) := by
  unfold Kernel.fileWrite at h
  dsimp only at h
  split at h
  · cases h
    simp at hret
  · next htotal =>
      have hstaged := k.staged_stageOld wb (k.current.fdTable fd).alfsIdx
        (k.current.fdTable fd).offset
      split at h <;> rename_i wb1 k₁ heq <;> rw [heq] at hstaged
      · cases h
        simp at hret
      · obtain ⟨wb2, -, rfl⟩ := map_eq_some_iff.mp h
        generalize ((k.current.fdTable fd).offset + len) % 2 ^ 32 = total at htotal hret ⊢
        unfold Kernel.storeFile at hret ⊢
        rw [hstaged.current] at hret ⊢
        cases hstat : alfsStat k₁.fs (k.current.fdTable fd).alfsIdx with
        | none => simp [hstat] at hret
        | some entry =>
          obtain ⟨bytes, size⟩ := entry
          obtain ⟨i, hidx, hi, hu, rfl⟩ := alfsStat_eq_some hstat
          rw [hstaged.dir] at hu
          have hname : CStr.ofBytes (slice k₁.fs.dir (64 * i) alfsNameMax) = k.fdName fd := by
            rw [Kernel.fdName, hidx, hstaged.dir]
            rfl
          have hshort : (k.fdName fd).length < alfsNameMax := by
            rw [Kernel.fdName, hidx]
            exact hterm i hi hu
          simp only [hstat, hname] at hret ⊢
          by_cases hneg : (alfsWrite k₁.fs (some (k.fdName fd)) (some wb2) total).1 < 0
          · simp [hneg] at hret
          · rw [if_neg hneg]
            obtain ⟨heq, -⟩ | ⟨n, slot, base, hn, hready, -, hch, -⟩ :=
              alfsWrite_cases k₁.fs (some (k.fdName fd)) (some wb2) total
            · simp [heq] at hneg
            · cases hn
              have hle := hch.sub.highWater_le
              rw [hstaged.dir] at hle
              obtain ⟨happ, hbytes⟩ := hch.write hready hshort (by omega) (Nat.not_lt.mp htotal)
                (Int.not_lt.mp hneg)
              exact happ.contents.trans (congrArg some hbytes)

/-- The byte behind the end of the file stays as it was, if the offset lies further on. -/
theorem Kernel.fileWrite_stale {r : Int × Bytes × Kernel} (h : k.fileWrite wb fd buf len = some r)
    (hno : ¬k.Refills fd len) : r.2.1 (alfsSize k.fs (k.current.fdTable fd).alfsIdx) =
      wb (alfsSize k.fs (k.current.fdTable fd).alfsIdx) := by
  unfold Kernel.Refills at hno
  refine Kernel.fileWrite_of_not_storesTo h ?_
  rintro ⟨-, ⟨-, hread⟩ | ⟨-, i, hi, heq, -⟩⟩
  · have hle :=
      (length_alfsPread k.fs (k.current.fdTable fd).alfsIdx (k.current.fdTable fd).offset 0).1
    omega
  · omega

/-- Whether a call succeeds does not depend on `write_buf`. -/
theorem sysWrite_succeeds (hfd : fd < taskFdMax) (hf : (k.current.fdTable fd).isFile)
    (hoff : (k.current.fdTable fd).offset < 2 ^ 32) (hlen : len < 2 ^ 32)
    {r : SysResult × Bytes × Kernel}
    (h : sysWrite k wb fd buf len = some r) (hret : r.1 = .returned (asInt len)) (wb' : Bytes) :
    ∃ x, k.fileWrite wb' fd buf len = some x ∧ x.1 = asInt len := by
  rw [sysWrite_file hfd hf] at h
  obtain ⟨x, hx, rfl⟩ := map_eq_some_iff.mp h
  have hrel := Kernel.fileWrite_rel hoff hlen wb wb' buf
  rw [hx] at hrel
  generalize k.fileWrite wb' fd buf len = y at hrel
  cases hrel with
  | some hxy => exact ⟨_, rfl, hxy.1.symm.trans (SysResult.returned.inj hret)⟩

/-- **What gets into a file.**  If the file reaches up to the offset, successful writes leave the
same in it whatever was in `write_buf`; if it does not, what was in `write_buf` gets into the
file, in every state in which a write succeeds and what it wrote can be read back. -/
theorem sysWrite_writesAlike (hfd : fd < taskFdMax) (hf : (k.current.fdTable fd).isFile = true)
    (hoff : (k.current.fdTable fd).offset < 2 ^ 32) (hlen : len < 2 ^ 32) :
    (k.Refills fd len → k.WritesAlike fd buf len) ∧
    (Terminated k.fs.dir → highWater k.fs.dir + sectorsOf writeBufSize ≤ 2 ^ 28 →
      (∃ wb r, sysWrite k wb fd buf len = some r ∧ r.1 = .returned (asInt len)) →
      k.WritesAlike fd buf len → k.Refills fd len) := by
  refine ⟨fun hrefills wb wb' r r' hr hr' _ _ => ?_, fun hterm hroom ⟨wb, r, hr, hret⟩ halike => ?_⟩
  · rw [sysWrite_file hfd hf] at hr hr'
    obtain ⟨x, hx, rfl⟩ := map_eq_some_iff.mp hr
    obtain ⟨x', hx', rfl⟩ := map_eq_some_iff.mp hr'
    have hrel := Kernel.fileWrite_rel hoff hlen wb wb' buf
    rw [hx, hx'] at hrel
    cases hrel with
    | some h => rw [h.2 hrefills]
  · by_contra hno
    have hshort := hno
    unfold Kernel.Refills at hshort
    have hint : asInt len ≠ -1 := by
      unfold asInt
      split <;> omega
    -- the same call with zeros and with ones in `write_buf`
    obtain ⟨x, hx, hxret⟩ := sysWrite_succeeds hfd hf hoff hlen hr hret fun _ => 0
    obtain ⟨y, hy, hyret⟩ := sysWrite_succeeds hfd hf hoff hlen hr hret fun _ => 1
    have hsame := halike _ _ _ _ (by rw [sysWrite_file hfd hf, hx]; rfl)
      (by rw [sysWrite_file hfd hf, hy]; rfl)
      (congrArg SysResult.returned hxret) (congrArg SysResult.returned hyret)
    rw [Kernel.fileWrite_contents hx (hxret ▸ hint) hterm hroom,
      Kernel.fileWrite_contents hy (hyret ▸ hint) hterm hroom, Nat.mod_eq_of_lt (by omega)] at hsame
    have hbyte := eq_of_slice_eq (some.inj hsame) (alfsSize k.fs (k.current.fdTable fd).alfsIdx)
      (by omega)
    rw [Nat.zero_add, Kernel.fileWrite_stale hx hno, Kernel.fileWrite_stale hy hno] at hbyte
    simp at hbyte

/-- A task that has opened "/a" for appending writes at the end of the file. -/
theorem sysWrite_writesAlike_append :
    ((twoAppending.onTask 2).kernel ⟨0, onesMachine, []⟩).WritesAlike 3 256 1 :=
  (sysWrite_writesAlike (by decide) (by decide +kernel) (by decide +kernel) (by decide)).1
    (.inl (by decide +kernel))

end

/-! ## a leak -/

/-- A byte is written to "/b"; "/a" is opened for appending, and then opened again, which makes
it empty. -/
def leakOps : List SysOp :=
  [.call (.openW pathB false), .call (.write 3 256 1), .call (.openW pathA true),
    .call (.openW pathA false)]

/-- The first descriptor of "/a" still has its offset, and the byte of "/b" gets into "/a". -/
theorem sysWrite_leaks : ∃ s k, SysRun (fun _ _ => True) (bootSystem dirA) s ∧
    (bootSystem dirA).exec ⟨0, onesMachine, []⟩ leakOps = some s ∧
      k = s.kernel ⟨0, onesMachine, []⟩ ∧
    (∃ r, sysWrite k s.writeBuf 4 256 1 = some r ∧ r.1 = .returned 1 ∧
      contents r.2.2.fs (k.fdName 4) = some [1, 1]) ∧
    (∃ r, sysWrite k (fun _ => 0) 4 256 1 = some r ∧ r.1 = .returned 1 ∧
      contents r.2.2.fs (k.fdName 4) = some [0, 1]) ∧
    ¬k.WritesAlike 4 256 1 := by
  obtain ⟨s, hexec, hs⟩ :=
    (Option.any_eq_true _ _).mp (show ((bootSystem dirA).exec ⟨0, onesMachine, []⟩ leakOps).any (fun s =>
      (sysWrite (s.kernel ⟨0, onesMachine, []⟩) s.writeBuf 4 256 1).any (fun r => r.1.isOne &&
        decide (contents r.2.2.fs ((s.kernel ⟨0, onesMachine, []⟩).fdName 4) = some [1, 1])) &&
      (sysWrite (s.kernel ⟨0, onesMachine, []⟩) (fun _ => 0) 4 256 1).any fun r => r.1.isOne &&
        decide (contents r.2.2.fs ((s.kernel ⟨0, onesMachine, []⟩).fdName 4) = some [0, 1])) =
          true by
    decide +kernel)
  generalize hk : s.kernel ⟨0, onesMachine, []⟩ = k at hs
  obtain ⟨hleak, hblank⟩ := Bool.and_eq_true_iff.mp hs
  obtain ⟨wb, k₁, hcall, hdata⟩ :=
    exists_returned_one (p := fun r => decide (contents r.2.fs (k.fdName 4) = some [1, 1])) hleak
  obtain ⟨wb', k2, hcall', hdata'⟩ :=
    exists_returned_one (p := fun r => decide (contents r.2.fs (k.fdName 4) = some [0, 1])) hblank
  have hone := of_decide_eq_true hdata
  have hzero := of_decide_eq_true hdata'
  refine ⟨s, k, SysRun.nil.exec (fun _ _ _ => trivial) hexec, hexec, hk.symm, ⟨_, hcall, rfl, hone⟩,
    ⟨_, hcall', rfl, hzero⟩, fun halike => ?_⟩
  have hsame := halike _ _ _ _ hcall hcall' rfl rfl
  rw [hone, hzero] at hsame
  simp at hsame

end AliOS
