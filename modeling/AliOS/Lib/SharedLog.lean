import AliOS.Lib.ByteMem
import Mathlib.Data.List.Infix
import Mathlib.Logic.Function.Basic

/-!
# AliOS.Lib.SharedLog

A file that several writers append to, each with an offset of its own.  A writer gets the
length of the file as its offset when it opens it.  To write, it copies what the file
holds before its offset into a staging buffer, puts the new bytes behind that, and makes
the buffer up to there the new file.  The buffer is shared, and keeps what was in it.

`Complete h` says of a history `h` that the file holds all that was written, in order;
`UpToDate d h` that the offset of `d` is where the next bytes belong.  Both can be read off
the history, without looking at the contents.
-/

namespace AliOS.Lib

open Function List

variable {δ : Type}

/-- What happened to the file. -/
inductive LogEvent (δ : Type) where
  | opened (d : δ)
  | wrote (d : δ) (bytes : List UInt8)

/-- The buffers written, in order.  The latest event comes first in a history. -/
def written : List (LogEvent δ) → List UInt8
  | [] => []
  | .opened _ :: h => written h
  | .wrote _ bytes :: h => written h ++ bytes

/-- Nothing has been written. -/
def Unwritten : List (LogEvent δ) → Prop
  | [] => True
  | .opened _ :: h => Unwritten h
  | .wrote _ _ :: _ => False

theorem written_of_unwritten {h : List (LogEvent δ)} (hun : Unwritten h) : written h = [] := by
  induction h with
  | nil => rfl
  | cons ev h ih =>
    cases ev with
    | opened d => exact ih hun
    | wrote d bytes => exact hun.elim

section

variable [DecidableEq δ]

mutual

/-- The last write was made at the end of what had been written before it. -/
def Complete : List (LogEvent δ) → Prop
  | [] => True
  | .opened _ :: h => Complete h
  | .wrote d _ :: h => UpToDate d h

/-- `d` was opened when the file was complete, and nobody else has written a byte since. -/
def UpToDate (d : δ) : List (LogEvent δ) → Prop
  | [] => False
  | .opened e :: h => if e = d then Complete h else UpToDate d h
  | .wrote e bytes :: h => if e = d then UpToDate d h else bytes = [] ∧ UpToDate d h

end

theorem complete_of_unwritten {h : List (LogEvent δ)} (hun : Unwritten h) : Complete h := by
  induction h with
  | nil => trivial
  | cons ev h ih =>
    cases ev with
    | opened d => exact ih hun
    | wrote d bytes => exact hun.elim

end

/-! ## writing through the staging buffer -/

/-- The bytes of a list, from index 0 on. -/
def ofList (l : List UInt8) : Bytes := fun k => l.getD k 0

@[simp] theorem slice_ofList (l : List UInt8) : slice (ofList l) 0 l.length = l := by
  refine ext_getElem (by simp) fun k hk hk' => ?_
  simp [slice, ofList, List.getD, List.getElem?_eq_getElem hk']

/-- The staging buffer for a write of `bytes` at `off`. -/
def stage (buf : Bytes) (file : List UInt8) (off : Nat) (bytes : List UInt8) : Bytes :=
  blit (blit buf 0 (min off file.length) (ofList file)) off bytes.length (ofList bytes)

section

variable {buf : Bytes} {file l bytes : List UInt8} {o n : Nat}

theorem slice_stage_of_le (hn : n ≤ o) (hfile : n ≤ file.length) :
    slice (stage buf file o bytes) 0 n = file.take n := by
  refine ext_getElem (by simp; omega) fun k hk hk' => ?_
  have hkn : k < n := by simpa using hk
  have hkf : k < file.length := by omega
  simp only [slice, getElem_map, getElem_range, Nat.zero_add, getElem_take, stage]
  rw [blit_of_notMem (by omega), blit_of_mem (by omega)]
  simp [ofList, List.getD, List.getElem?_eq_getElem hkf]

/-- The buffer holds `l` and the file starts with it: then they do after staging. -/
theorem slice_stage_of_kept (hbuf : slice buf 0 l.length = l)
    (hfile : file <+: l) (ho : l.length ≤ o ∨ bytes = []) :
    slice (stage buf file o bytes) 0 l.length = l := by
  refine ext_getElem (by simp) fun k hk hk' => ?_
  have hget : buf k = l[k] := by
    have heq := congrArg (fun l => l[k]?) hbuf
    simpa [slice, hk', List.getElem?_eq_getElem] using heq
  simp only [slice, getElem_map, getElem_range, Nat.zero_add, stage]
  rw [blit_of_notMem (by rcases ho with ho | rfl <;> [skip; rw [length_nil]] <;> omega)]
  by_cases hkf : k < min o file.length
  · rw [blit_of_mem (by omega)]
    have hlt : k < file.length := by omega
    simp [ofList, List.getD, List.getElem?_eq_getElem hlt, hfile.getElem hlt]
  · rw [blit_of_notMem (by omega), hget]

theorem slice_stage_append (hl : slice (stage buf file l.length bytes) 0 l.length = l) :
    slice (stage buf file l.length bytes) 0 (l ++ bytes).length = l ++ bytes := by
  rw [length_append, ← slice_append, hl, Nat.zero_add]
  congr 1
  refine Eq.trans (slice_congr fun k hk => ?_) (slice_ofList bytes)
  rw [Nat.zero_add, stage, blit_add hk]

end

/-! ## runs -/

/-- The file, the buffer and the offsets; `none` for a writer that has not opened the file. -/
structure SharedLog (δ : Type) where
  file : List UInt8
  buf : Bytes
  offset : δ → Option Nat

section

variable [DecidableEq δ]

def SharedLog.opened (log : SharedLog δ) (d : δ) : SharedLog δ :=
  { log with offset := update log.offset d (some log.file.length) }

def SharedLog.wrote (log : SharedLog δ) (d : δ) (o : Nat) (bytes : List UInt8) : SharedLog δ where
  file := slice (stage log.buf log.file o bytes) 0 (o + bytes.length)
  buf := stage log.buf log.file o bytes
  offset := update log.offset d (some (o + bytes.length))

/-- `LogRun orig log h`: the file held `orig`, nobody had opened it, and `h` made it `log`. -/
inductive LogRun (orig : List UInt8) : SharedLog δ → List (LogEvent δ) → Prop
  | start (buf : Bytes) : LogRun orig ⟨orig, buf, fun _ => none⟩ []
  | opened {log h} (d : δ) : LogRun orig log h → LogRun orig (log.opened d) (.opened d :: h)
  | wrote {log h} {d : δ} {o} (bytes) : LogRun orig log h → log.offset d = some o →
      LogRun orig (log.wrote d o bytes) (.wrote d bytes :: h)

/-- The three ways file, buffer and offsets can stand to the bytes `l` that belong into the
file: the file is a part of them and the buffer holds the rest, all is well, or neither the
file nor an offset reaches their end. -/
def SharedLog.Shape (log : SharedLog δ) (l : List UInt8) : Prop :=
  log.file <+: l ∧ slice log.buf 0 l.length = l ∨
  log.file = l ∧ (∀ d o, log.offset d = some o → o = l.length) ∨
  log.file.length < l.length ∧ ∀ d o, log.offset d = some o → o < l.length

/-- What the history tells of a log into which the bytes `l` belong. -/
structure SharedLog.Tracks (log : SharedLog δ) (l : List UInt8) (h : List (LogEvent δ)) : Prop where
  length_le : log.file.length ≤ l.length
  offset_le : ∀ {d o}, log.offset d = some o → o ≤ l.length
  complete : Complete h ↔ log.file.length = l.length
  upToDate : ∀ d, UpToDate d h ↔ log.offset d = some l.length
  shape : log.Shape l

variable {log : SharedLog δ} {h : List (LogEvent δ)} {d : δ} {orig l bytes : List UInt8} {o : Nat}

theorem SharedLog.Tracks.opened (ht : log.Tracks l h) (d : δ) :
    (log.opened d).Tracks l (.opened d :: h) where
  length_le := ht.length_le
  offset_le {e o} he := by
    rcases eq_or_ne e d with rfl | hne
    · have ho : log.file.length = o := by simpa [SharedLog.opened] using he
      exact ho ▸ ht.length_le
    · exact ht.offset_le (by simpa [SharedLog.opened, hne] using he)
  complete := ht.complete
  upToDate e := by
    rcases eq_or_ne e d with rfl | hne
    · simpa [UpToDate, SharedLog.opened] using ht.complete
    · simpa [UpToDate, SharedLog.opened, hne, hne.symm] using ht.upToDate e
  shape := by
    rcases ht.shape with hpart | ⟨hfile, hoff⟩ | ⟨hfile, hoff⟩
    · exact .inl hpart
    · refine .inr (.inl ⟨hfile, fun e o he => ?_⟩)
      rcases eq_or_ne e d with rfl | hne
      · simpa [SharedLog.opened, hfile, eq_comm] using he
      · exact hoff e o (by simpa [SharedLog.opened, hne] using he)
    · refine .inr (.inr ⟨hfile, fun e o he => ?_⟩)
      rcases eq_or_ne e d with rfl | hne
      · have ho : log.file.length = o := by simpa [SharedLog.opened] using he
        exact ho ▸ hfile
      · exact hoff e o (by simpa [SharedLog.opened, hne] using he)

/-- An offset after a write. -/
theorem SharedLog.offset_wrote {e : δ} {o' : Nat} (he : (log.wrote d o bytes).offset e = some o') :
    e = d ∧ o' = o + bytes.length ∨ e ≠ d ∧ log.offset e = some o' := by
  rcases eq_or_ne e d with rfl | hne
  · exact .inl ⟨rfl, by simpa [SharedLog.wrote, eq_comm] using he⟩
  · exact .inr ⟨hne, by simpa [SharedLog.wrote, hne] using he⟩

theorem SharedLog.Tracks.shape_wrote (ht : log.Tracks l h) (ho : log.offset d = some o)
    (bytes : List UInt8) :
    (log.wrote d o bytes).Shape (l ++ bytes) := by
  have hle := ht.offset_le ho
  -- at the end of what belongs into the file the buffer gets all of it
  have hend : slice (stage log.buf log.file l.length bytes) 0 l.length = l → o = l.length →
      (log.wrote d o bytes).Shape (l ++ bytes) := by
    rintro hbuf rfl
    have hall := slice_stage_append hbuf
    refine .inl ⟨?_, hall⟩
    rw [length_append] at hall
    simp only [SharedLog.wrote, hall, prefix_rfl]
  -- before it a write leaves a gap, unless there is nothing to write
  have hgap : o < l.length → bytes ≠ [] → (log.wrote d o bytes).Shape (l ++ bytes) := by
    intro hlt hne
    have hpos := length_pos_of_ne_nil hne
    refine .inr (.inr ⟨by simp [SharedLog.wrote]; omega, fun e o' he => ?_⟩)
    rw [length_append]
    rcases SharedLog.offset_wrote he with ⟨rfl, rfl⟩ | ⟨-, he⟩
    · omega
    · have := ht.offset_le he
      omega
  rcases ht.shape with ⟨hpre, hbuf⟩ | ⟨hfile, hoff⟩ | ⟨-, hoff⟩
  · rcases hle.eq_or_lt with heq | hlt
    · exact hend (slice_stage_of_kept hbuf hpre (.inl le_rfl)) heq
    · by_cases hne : bytes = []
      · subst hne
        have hall : slice (stage log.buf log.file o []) 0 l.length = l :=
          slice_stage_of_kept hbuf hpre (.inr rfl)
        refine .inl ⟨?_, by simpa [SharedLog.wrote] using hall⟩
        have htake : slice (stage log.buf log.file o []) 0 o = l.take o := by
          have hpart := slice_drop_take (m := stage log.buf log.file o []) (a := 0)
            (n := l.length) (i := 0)
            (k := o) (by omega)
          rw [hall] at hpart
          simpa using hpart.symm
        simpa [SharedLog.wrote, htake] using take_prefix o l
      · exact hgap hlt hne
  · refine hend ?_ (hoff d o ho)
    rw [slice_stage_of_le le_rfl (by rw [hfile]), hfile, take_length]
  · have hlt := hoff d o ho
    by_cases hne : bytes = []
    · subst hne
      refine .inr (.inr ⟨by simpa [SharedLog.wrote] using hlt, fun e o' he => ?_⟩)
      rw [append_nil]
      rcases SharedLog.offset_wrote he with ⟨rfl, rfl⟩ | ⟨-, he⟩
      · simpa using hlt
      · exact hoff e o' he
    · exact hgap hlt hne

theorem SharedLog.Tracks.wrote (ht : log.Tracks l h) (ho : log.offset d = some o)
    (bytes : List UInt8) :
    (log.wrote d o bytes).Tracks (l ++ bytes) (.wrote d bytes :: h) where
  length_le := by
    have hle := ht.offset_le ho
    simp only [SharedLog.wrote, length_slice, length_append]
    omega
  offset_le {e o'} he := by
    have hle := ht.offset_le ho
    rw [length_append]
    rcases SharedLog.offset_wrote he with ⟨rfl, rfl⟩ | ⟨-, he⟩
    · omega
    · have := ht.offset_le he
      omega
  complete := by
    rw [Complete, ht.upToDate d, ho]
    simp [SharedLog.wrote]
  upToDate e := by
    rw [UpToDate, length_append]
    rcases eq_or_ne e d with rfl | hne
    · rw [if_pos rfl, ht.upToDate, ho]
      simp [SharedLog.wrote]
    · rw [if_neg hne.symm, ht.upToDate, ← length_eq_zero_iff]
      simp only [SharedLog.wrote, update_of_ne hne]
      constructor
      · rintro ⟨hnil, he⟩
        rw [he, hnil, Nat.add_zero]
      · intro he
        have := ht.offset_le he
        have hnil : bytes.length = 0 := by omega
        exact ⟨hnil, by rw [he, hnil, Nat.add_zero]⟩
  shape := ht.shape_wrote ho bytes

theorem LogRun.tracks (hrun : LogRun orig log h) : log.Tracks (orig ++ written h) h := by
  induction hrun with
  | start buf =>
    refine ⟨by simp [written], by simp, by simp [Complete, written], by simp [UpToDate],
      .inr (.inl ?_)⟩
    simp [written]
  | opened d _ ih => exact ih.opened d
  | wrote bytes _ ho ih =>
    rw [written, ← append_assoc]
    exact ih.wrote ho bytes

/-- **A file appended to through private offsets.**  It holds what was written, in order,
exactly when the history is complete. -/
theorem LogRun.file_eq_iff (hrun : LogRun orig log h) :
    log.file = orig ++ written h ↔ Complete h := by
  have ht := hrun.tracks
  constructor
  · intro heq
    exact ht.complete.mpr (congrArg List.length heq)
  · intro hc
    have hlen := ht.complete.mp hc
    rcases ht.shape with ⟨hpre, -⟩ | ⟨hfile, -⟩ | ⟨hlt, -⟩
    · exact hpre.eq_of_length hlen
    · exact hfile
    · omega

end

end AliOS.Lib
