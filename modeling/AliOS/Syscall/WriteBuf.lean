import AliOS.Syscall.Pointers
import AliOS.System

/-!
# AliOS.Syscall.WriteBuf

The stores of `file_write` into `write_buf`, its buffer of 4096 bytes.  The only check is on
the sum of offset and length, and the sum is one of 32 bits: for lengths close to 2^32 it
comes out small, and the loop behind it runs past the end of the buffer.
-/

namespace AliOS

open Lib Function Option

/-! ## the stores -/

/-- The check of `file_write` on offset and length. -/
def FitsSum (off len : Nat) : Prop := (off + len) % 2 ^ 32 ≤ writeBufSize

/-- `file_write` stores to `write_buf[j]`: `alfs_pread` does, or an iteration of the loop that
the loop comes to. -/
def Kernel.StoresTo (k : Kernel) (writeBuf : Bytes) (fd buf len j : Nat) : Prop :=
  let f := k.current.fdTable fd
  let old := k.stageOld writeBuf f.alfsIdx f.offset
  FitsSum f.offset len ∧
    (0 < f.offset ∧ j < (alfsPread k.fs f.alfsIdx f.offset 0).1.2.length ∨
      old.1 = true ∧ ∃ i < len, j = (f.offset + i) % 2 ^ 32 ∧
        (stageNew old.2.2.machine buf f.offset (i + 1) old.2.1).isSome = true)

/-- The length of the prefix that `file_write` has `alfs_pread` put into `write_buf`. -/
def Kernel.AsksFor (k : Kernel) (fd len n : Nat) : Prop :=
  let f := k.current.fdTable fd
  FitsSum f.offset len ∧ 0 < f.offset ∧ n = f.offset

/-- All stores of `file_write` stay in `write_buf`. -/
structure Kernel.InWriteBuf (k : Kernel) (writeBuf : Bytes) (fd buf len : Nat) : Prop where
  asked : ∀ n, k.AsksFor fd len n → n ≤ writeBufSize
  stored : ∀ j, k.StoresTo writeBuf fd buf len j → j < writeBufSize

section

variable {k : Kernel} {wb : Bytes} {fd buf len : Nat}

/-- The loop comes to an end if all bytes can be loaded. -/
theorem isSome_stageNew {m : Machine} {off n : Nat} :
    (stageNew m buf off n wb).isSome ↔ LoadReaches m buf n :=
  isSome_loadLoop (f := fun i b (t : Bytes) => update t ((off + i) % 2 ^ 32) b)

/-- The loop changes only what it stores to. -/
theorem stageNew_of_notMem {m : Machine} {off n j : Nat} {wb' : Bytes}
    (h : stageNew m buf off n wb = some wb')
    (hj : ∀ i < n, j ≠ (off + i) % 2 ^ 32) : wb' j = wb j := by
  refine forRangeM_induct (fun _ t => t j = wb j) h rfl fun i t t' _ hi ht hstep => ?_
  obtain ⟨b, -, rfl⟩ := map_eq_some_iff.mp hstep
  rw [update_of_ne (hj i (by omega)), ht]

/-- `StoresTo` has all stores: what it does not name is as it was. -/
theorem Kernel.fileWrite_of_not_storesTo {r : Int × Bytes × Kernel}
    (h : k.fileWrite wb fd buf len = some r)
    {j : Nat} (hj : ¬k.StoresTo wb fd buf len j) : r.2.1 j = wb j := by
  unfold Kernel.fileWrite at h
  by_cases hfit : FitsSum (k.current.fdTable fd).offset len
  · rw [if_neg (Nat.not_lt.mpr hfit)] at h
    -- what `alfs_pread` leaves alone
    have hold : (k.stageOld wb (k.current.fdTable fd).alfsIdx (k.current.fdTable fd).offset).2.1 j =
        wb j := by
      unfold Kernel.stageOld
      split
      · next hpos =>
          have hge := Nat.not_lt.mp fun hlt => hj ⟨hfit, .inl ⟨hpos, hlt⟩⟩
          dsimp only
          exact blit_of_notMem (.inr (by rwa [Nat.zero_add]))
      · rfl
    have hnew := fun hok : (k.stageOld wb _ (k.current.fdTable fd).offset).1 =
      true => fun i hi hji hsome =>
      hj ⟨hfit, .inr ⟨hok, i, hi, hji, hsome⟩⟩
    split at h <;> rename_i wb1 k₁ heq <;> rw [heq] at hold hnew
    · cases h
      exact hold
    · obtain ⟨wb2, hwb, rfl⟩ := map_eq_some_iff.mp h
      rw [← hold]
      have hreach := isSome_stageNew.mp (isSome_of_eq_some hwb)
      exact stageNew_of_notMem hwb fun i hi hji =>
        hnew rfl i hi hji (isSome_stageNew.mpr fun a ha => hreach a (by omega))
  · rw [if_pos (Nat.not_le.mp hfit)] at h
    cases h
    rfl

/-- The loop reaches the end of the buffer: the old bytes can be read, and so can enough of the
new ones. -/
def Kernel.RunsPast (k : Kernel) (fd buf : Nat) : Prop :=
  let f := k.current.fdTable fd
  0 ≤ (alfsPread k.fs f.alfsIdx f.offset 0).1.1 ∧
    LoadReaches k.machine buf (writeBufSize - f.offset + 1)

/-- **The buffer of `file_write`.**  Its stores stay inside exactly if offset and length add up
to at most 4096 as numbers, or to more than that in 32 bits; or, for a sum that wraps, if the
call fails or dies before the loop gets to the end of the buffer. -/
theorem fileWrite_inWriteBuf_iff (hoff : (k.current.fdTable fd).offset < 2 ^ 32)
    (hlen : len < 2 ^ 32) :
    k.InWriteBuf wb fd buf len ↔ (k.current.fdTable fd).offset + len ≤ writeBufSize ∨
      ¬FitsSum (k.current.fdTable fd).offset len ∨
      (k.current.fdTable fd).offset ≤ writeBufSize ∧ ¬k.RunsPast fd buf := by
  have hmachine := k.stageOld_machine wb (k.current.fdTable fd).alfsIdx
    (k.current.fdTable fd).offset
  have hread := length_alfsPread_le k.fs (k.current.fdTable fd).alfsIdx
    (k.current.fdTable fd).offset 0
  have hok : 0 < (k.current.fdTable fd).offset →
      ((k.stageOld wb (k.current.fdTable fd).alfsIdx (k.current.fdTable fd).offset).1 = true ↔
        0 ≤ (alfsPread k.fs (k.current.fdTable fd).alfsIdx (k.current.fdTable fd).offset 0).1.1) :=
          fun hpos => by
    unfold Kernel.stageOld
    rw [if_pos hpos]
    simp
  -- a small sum is small as a number, or it has wrapped and the offset is not 0
  have hsum : FitsSum (k.current.fdTable fd).offset len →
      (k.current.fdTable fd).offset + len ≤ writeBufSize ∨
      2 ^ 32 ≤ (k.current.fdTable fd).offset + len ∧ 0 < (k.current.fdTable fd).offset :=
        fun hfit => by
    unfold FitsSum at hfit
    omega
  have hbuf : writeBufSize < 2 ^ 32 - writeBufSize := by decide
  constructor
  · intro h
    by_cases hfit : FitsSum (k.current.fdTable fd).offset len
    swap
    · exact .inr (.inl hfit)
    obtain hle | ⟨hwrap, hpos⟩ := hsum hfit
    · exact .inl hle
    · have hle := h.asked _ ⟨hfit, hpos, rfl⟩
      refine .inr (.inr ⟨hle, fun ⟨hpread, hreach⟩ => ?_⟩)
      have hlast := h.stored writeBufSize ⟨hfit, .inr ⟨(hok hpos).mpr hpread,
        writeBufSize - (k.current.fdTable fd).offset, by omega,
        by rw [Nat.add_sub_cancel' hle, Nat.mod_eq_of_lt (by omega)],
        by rw [hmachine]; exact isSome_stageNew.mpr hreach⟩⟩
      exact Nat.lt_irrefl _ hlast
  · intro h
    have hle : FitsSum (k.current.fdTable fd).offset len →
        (k.current.fdTable fd).offset ≤ writeBufSize := fun hfit => by
      obtain hle | hno | ⟨hle, -⟩ := h
      · omega
      · exact absurd hfit hno
      · exact hle
    refine ⟨fun n ⟨hfit, _, hn⟩ => hn ▸ hle hfit, fun j ⟨hfit, hj⟩ => ?_⟩
    have hle := hle hfit
    obtain ⟨-, hj⟩ | ⟨hstaged, i, hi, rfl, hsome⟩ := hj
    · omega
    · refine (Nat.mod_le _ _).trans_lt (Nat.not_le.mp fun hpast => ?_)
      -- so the sum has wrapped, and the loop has come to the end of the buffer
      obtain hsmall | ⟨-, hpos⟩ := hsum hfit
      · omega
      · obtain hsmall | hno | ⟨-, hstops⟩ := h
        · omega
        · exact hno hfit
        · rw [hmachine] at hsome
          exact hstops ⟨(hok hpos).mp hstaged, fun a ha => isSome_stageNew.mp hsome a (by omega)⟩

end

/-! ## a length close to 2^32 -/

/-- A program with two pages has opened "/a" for appending: its descriptor stands at offset 1. -/
def appendingKernel : Kernel where
  machine := pairMachine 402
  fs := blankFs dirA
  pipes := fun _ => ⟨fun _ => 0, 0, 0, 0, 0⟩
  current :=
    { pid := 1, state := .running, parentPid := 0, exitCode := 0, waiting := false,
      fdTable := fun _ => ⟨true, .file, 0, 1, 0, false⟩ }
  queue := []

/-- All of its two pages can be loaded. -/
theorem kload8_pairMachine {a : Nat} (hlo : 0x08000000 ≤ a) (hhi : a < 0x08002000) :
    (kload8 (pairMachine 402) a).isSome := by
  have hpte : hasFlag (pteAt (pairMachine 402).mem 320 (a / 4096)) pagePresent := by
    rw [pteAt_pairMachine (by unfold UserPage; omega)]
    by_cases h0 : a / 4096 = 32768
    · rw [if_pos h0]
      decide
    · rw [if_neg h0, if_pos (by omega)]
      decide
  have hwalk : walk (pairMachine 402).mem (pairMachine 402).cr3 a = some _ :=
    (walk_eq_pteAt (pairMachine 402).mem 320 a).trans (if_pos hpte)
  unfold kload8 Machine.kread
  rw [hwalk]
  rfl

theorem fileWrite_inWriteBuf_full : appendingKernel.InWriteBuf (fun _ => 0) 3 0x08000000 4095 :=
  (fileWrite_inWriteBuf_iff (by decide) (by decide)).mpr (.inl (by decide))

/-- With the length 2^32 - 1 the sum is 0, and the loop stores behind the buffer. -/
theorem fileWrite_overruns : FitsSum (appendingKernel.current.fdTable 3).offset 0xFFFFFFFF ∧
    appendingKernel.StoresTo (fun _ => 0) 3 0x08000000 0xFFFFFFFF 4096 ∧
    ¬appendingKernel.InWriteBuf (fun _ => 0) 3 0x08000000 0xFFFFFFFF := by
  have hfit : FitsSum (appendingKernel.current.fdTable 3).offset 0xFFFFFFFF := by
    show (1 + 0xFFFFFFFF) % 2 ^ 32 ≤ writeBufSize
    decide
  have hstore : appendingKernel.StoresTo (fun _ => 0) 3 0x08000000 0xFFFFFFFF 4096 := by
    refine ⟨hfit, .inr ⟨by decide +kernel, 4095, by decide, by decide, ?_⟩⟩
    refine isSome_stageNew.mpr fun j hj => ?_
    rw [Nat.mod_eq_of_lt (by omega)]
    exact kload8_pairMachine (by omega) (by omega)
  exact ⟨hfit, hstore, fun h => absurd (h.stored 4096 hstore) (by decide)⟩

end AliOS
