import AliOS.Alfs.Extents

/-!
# AliOS.Alfs.Errors

What a call that returns -1 leaves behind.  None of the three calls undoes its
change of `fs_dir` when a later transfer fails: `alfs_mkdir` and `alfs_delete`
when the flush fails, `alfs_write` over an existing file as soon as any of its
transfers fails, because it unlinks the old version first.

`FailsClean` lists the calls for which nothing is left behind, in terms of the
directory before the call and of which transfers fail: those that are refused,
those whose transfers all succeed, a write of a new name whose *data* cannot be
written, and a write that would store what is already there.
-/

namespace AliOS

open Lib

variable {fs fs' : Fs} {dir base : Bytes} {slot size : Nat}

/-! ## which transfers fail -/

/-- The transfer number `k` fails. -/
def failsAt (o : List AtaOutcome) (k : Nat) : Bool :=
  match o[k]? with
  | some (.fail _ _) => true
  | _ => false

theorem failsAt_drop (o : List AtaOutcome) (n k : Nat) :
    failsAt (o.drop n) k = failsAt o (n + k) := by
  unfold failsAt
  rw [List.getElem?_drop]

/-- A write takes one outcome off the script. -/
theorem ataWrite_script (d : Disk) (lba : Nat) {count : Nat} (hc : count ≠ 0) (buf : Bytes) :
    (ataWrite d lba count buf).1 = !failsAt d.script 0 ∧
      (ataWrite d lba count buf).2.script = d.script.drop 1 := by
  unfold ataWrite failsAt
  rw [if_neg hc]
  cases d.script with
  | nil => exact ⟨rfl, rfl⟩
  | cons x rest => cases x <;> exact ⟨rfl, rfl⟩

/-- Transfers for `n` complete sectors. -/
def batches (n : Nat) : Nat := (n + 254) / 255

/-- Data transfers of `alfs_write`. -/
def dataTransfers (size : Nat) : Nat :=
  batches (size / 512) + if size % 512 ≠ 0 ∨ size = 0 then 1 else 0

theorem batches_succ {n : Nat} (h : 0 < n) : batches n = 1 + batches (n - batchOf n) := by
  unfold batches batchOf
  split <;> omega

theorem writeSectors_script (src : Bytes) (lba full : Nat) (done : Nat) (d : Disk) :
    ((writeSectors src lba full done d).1 ↔
      ∀ k < batches (full - done), failsAt d.script k = false) ∧
    ((writeSectors src lba full done d).1 →
      (writeSectors src lba full done d).2.script = d.script.drop (batches (full - done))) := by
  induction hn : full - done using Nat.strongRecOn generalizing done d with
  | ind n ih =>
    rw [writeSectors]
    by_cases hlt : done < full
    · have hb := batchOf_pos (show 0 < full - done by omega)
      have hsucc := batches_succ (show 0 < n by omega)
      rw [dif_pos hlt]
      obtain ⟨hok, hscript⟩ := ataWrite_script d ((lba + done) % 2 ^ 32)
        (show batchOf (full - done) ≠ 0 by omega) fun k => src (done * 512 + k)
      cases hw : ataWrite d ((lba + done) % 2 ^ 32) (batchOf (full - done))
          fun k => src (done * 512 + k) with
      | mk ok d' =>
        rw [hw] at hok hscript
        dsimp only at hok hscript
        cases ok with
        | false =>
          refine ⟨⟨fun h => absurd h (by simp), fun h => ?_⟩, fun h => absurd h (by simp)⟩
          rw [h 0 (by omega)] at hok
          exact absurd hok (by decide)
        | true =>
          have h0 : failsAt d.script 0 = false := by simpa using hok
          obtain ⟨ihok, ihscript⟩ := ih _ (show full - (done + batchOf (full - done)) < n by omega)
            (done + batchOf (full - done)) d' rfl
          have hleft : full - (done + batchOf (full - done)) = n - batchOf n := by
            rw [hn]; omega
          rw [hleft, hscript] at ihok ihscript
          rw [ihok, hsucc]
          constructor
          · simp only [failsAt_drop]
            constructor
            · intro h k hk
              cases k with
              | zero => exact h0
              | succ k =>
                rw [Nat.add_comm]
                exact h k (by omega)
            · exact fun h k hk => h (1 + k) (by omega)
          · intro h
            rw [ihscript (ihok.mpr h), List.drop_drop]
    · rw [dif_neg hlt, show n = 0 by omega]
      exact ⟨⟨fun _ k hk => absurd hk (by simp [batches]), fun _ => rfl⟩, fun _ => rfl⟩

/-- The data of a write gets through exactly when none of its transfers fails;
the script then stands at the directory flush. -/
theorem writeData_script (src : Bytes) (lba size : Nat) (d : Disk) :
    ((writeData src lba size d).1 ↔ ∀ k < dataTransfers size, failsAt d.script k = false) ∧
    ((writeData src lba size d).1 →
      (writeData src lba size d).2.script = d.script.drop (dataTransfers size)) := by
  obtain ⟨hok, hscript⟩ := writeSectors_script src lba (size / 512) 0 d
  rw [Nat.sub_zero] at hok hscript
  unfold writeData dataTransfers
  simp only
  cases hw : writeSectors src lba (size / 512) 0 d with
  | mk ok d' =>
    rw [hw] at hok hscript
    cases ok with
    | false =>
      refine ⟨⟨fun h => absurd h (by simp), fun h => ?_⟩, fun h => absurd h (by simp)⟩
      exact hok.mpr fun k hk => h k (by omega)
    | true =>
      have hfirst := hok.mp rfl
      have hrest := hscript rfl
      dsimp only
      by_cases ht : size % 512 ≠ 0 ∨ size = 0
      · rw [if_pos ht, if_pos ht]
        obtain ⟨hok', hscript'⟩ := ataWrite_script d' ((lba + size / 512) % 2 ^ 32)
          (show 1 ≠ 0 by decide) fun k => if k < size % 512 then src (size / 512 * 512 + k) else 0
        rw [hrest, failsAt_drop] at hok'
        rw [hrest, List.drop_drop] at hscript'
        rw [hok', hscript']
        refine ⟨⟨fun h k hk => ?_, fun h => ?_⟩, fun _ => rfl⟩
        · by_cases hk' : k < batches (size / 512)
          · exact hfirst k hk'
          · rw [show k = batches (size / 512) + 0 by omega]
            simpa using h
        · simp [h (batches (size / 512)) (by omega)]
      · rw [if_neg ht, if_neg ht]
        exact ⟨⟨fun _ => hfirst, fun _ => rfl⟩, fun _ => hrest⟩

/-! ## what is left behind -/

/-- If the call failed, the directory and every read of a used entry are as
before. -/
def LeavesNothing (fs : Fs) (r : Int × Fs) : Prop :=
  r.1 = -1 → r.2.dir = fs.dir ∧
    ∀ j < alfsMaxFiles, entryUsed fs.dir j = true → ∀ max,
      (alfsRead r.2.quiet j max).1 = (alfsRead fs.quiet j max).1

theorem leavesNothing_refl (fs : Fs) : LeavesNothing fs (-1, fs) :=
  fun _ => ⟨rfl, fun _ _ _ _ => rfl⟩

/-- The call returns -1 before it changes anything. -/
def Refused (dir : Bytes) : AlfsCall → Prop
  | .write name buf size => (buf.isNone = true ∧ size.toNat ≠ 0) ∨
      ∀ n, name = some n → ∀ slot base, ¬Chosen dir n slot base
  | .mkdir path => ∀ p, path = some p → findEntry dir p ≠ none ∨ firstUnused dir = none
  | .delete name => ∀ n, name = some n → findEntry dir n = none

/-- The sectors of a write are clear of every used entry's, and exist. -/
def Clear (base : Bytes) (size : Nat) : Prop :=
  (∀ j < alfsMaxFiles, entryUsed base j = true → entrySize base j = 0 ∨
    alfsDataStart ≤ entryStart base j ∧
      entryStart base j + sectorsOf (entrySize base j) ≤ highWater base) ∧
  highWater base + writtenSectors size ≤ 2 ^ 28

/-- A write clear of the rest whose failure leaves nothing behind: of a new
name, when its data cannot be written, or of a file as it already is. -/
def WriteFailsClean (fs : Fs) (o : List AtaOutcome) (n : CStr) (buf : Option Bytes) (size : Nat) :
    Prop :=
  ∃ slot base, Chosen fs.dir n slot base ∧ Clear base size ∧
    (base = fs.dir ∧ (∃ k < dataTransfers size, failsAt o k = true) ∨
     (∀ k < dataTransfers size, failsAt o k = false) ∧
      setEntry base slot n (highWater base) size alfsFlagUsed = fs.dir ∧
      ∀ k < size, fs.disk.data (512 * highWater base + k) = buf.getD (fun _ => 0) k)

/-- The calls that leave nothing behind when they fail. -/
def FailsClean (fs : Fs) (o : List AtaOutcome) (c : AlfsCall) : Prop :=
  Refused fs.dir c ∨
  match c with
  | .write name buf size => (∀ k ≤ dataTransfers size.toNat, failsAt o k = false) ∨
      ∃ n, name = some n ∧ WriteFailsClean fs o n buf size.toNat
  | .mkdir _ => failsAt o 0 = false
  | .delete _ => failsAt o 0 = false

/-- A write in this directory is clear of every used entry. -/
def ClearFor (dir : Bytes) : AlfsCall → Prop
  | .write (some n) _ size => ∀ slot base, Chosen dir n slot base → Clear base size.toNat
  | _ => True

/-! ## `alfs_mkdir` and `alfs_delete` -/

/-- The result of a flush, in terms of the script. -/
theorem flush_result {i : Nat} {ok : Bool} (hflush : dirFlushSlot fs i = (ok, fs')) :
    ok = !failsAt fs.disk.script 0 :=
  (congrArg Prod.fst hflush).symm.trans (ataWrite_script fs.disk _ (by decide) _).1

/-- A call that flushes an entry it has taken into use, or out of use, leaves nothing behind iff
the flush does not fail. -/
theorem flush_leavesNothing_iff {dir : Bytes} {slot : Nat} {ok : Bool} {v : Int}
    (hflush : dirFlushSlot { fs with dir := dir } slot = (ok, fs')) (hv : v ≠ -1)
    (hne : entryUsed dir slot ≠ entryUsed fs.dir slot) :
    LeavesNothing fs (if ok then v else -1, fs') ↔ failsAt fs.disk.script 0 = false := by
  have hok := flush_result hflush
  cases ok with
  | true => exact ⟨fun _ => by simpa using hok, fun _ hret => absurd hret hv⟩
  | false =>
    have hfails : failsAt fs.disk.script 0 := by simpa using hok
    refine ⟨fun hclean => absurd ?_ hne, fun hfine => by simp [hfails] at hfine⟩
    have hdir : fs'.dir = dir := (flush_keeps hflush).1
    rw [← hdir, (hclean rfl).1]

theorem mkdir_leavesNothing_iff (fs : Fs) (hr : fs.ready) (path : Option CStr) :
    LeavesNothing fs (alfsMkdir fs path) ↔
      Refused fs.dir (.mkdir path) ∨ failsAt fs.disk.script 0 = false := by
  obtain ⟨heq, hwhy⟩ | ⟨p, slot, rfl, -, hfind, hslot, ok, fs', hflush, heq⟩ :=
    alfsMkdir_cases fs path
  · rw [heq]
    exact ⟨fun _ => .inl (hwhy hr), fun _ => leavesNothing_refl fs⟩
  · obtain ⟨-, hunused, -⟩ := firstUnused_eq_some.mp hslot
    obtain ⟨-, -, hflags, -⟩ := setEntry_self fs.dir slot p (show 0 < 2 ^ 32 by decide)
      (show 0 < 2 ^ 32 by decide) (show alfsFlagUsed ||| alfsFlagDir < 2 ^ 32 by decide)
    rw [heq, flush_leavesNothing_iff hflush (by omega)
      (by rw [(entryUsed_of_flags hflags).1, hunused]; decide)]
    refine (or_iff_right fun hno => ?_).symm
    simpa [hfind, hslot] using hno p rfl

theorem delete_leavesNothing_iff (fs : Fs) (hr : fs.ready) (name : Option CStr) :
    LeavesNothing fs (alfsDelete fs name) ↔
      Refused fs.dir (.delete name) ∨ failsAt fs.disk.script 0 = false := by
  obtain ⟨heq, hwhy⟩ | ⟨n, slot, rfl, -, hfind, ok, fs', hflush, heq⟩ := alfsDelete_cases fs name
  · rw [heq]
    exact ⟨fun _ => .inl (hwhy hr), fun _ => leavesNothing_refl fs⟩
  · obtain ⟨-, hused, -, -⟩ := findEntry_eq_some.mp hfind
    rw [heq, flush_leavesNothing_iff hflush (by decide)
      (by rw [entryUsed_setFlags_zero, hused]; decide)]
    refine (or_iff_right fun hno => ?_).symm
    simpa [hfind] using hno n rfl

/-! ## `alfs_write` -/

/-- There is one way to choose a slot. -/
theorem Chosen.unique {base' : Bytes} {n : CStr} {slot' : Nat} (h : Chosen dir n slot base)
    (h' : Chosen dir n slot' base') : slot' = slot ∧ base' = base := by
  obtain ⟨hf, -, rfl⟩ | ⟨hf, hu, rfl⟩ := h <;> obtain ⟨hf', -, rfl⟩ | ⟨hf', hu', rfl⟩ := h'
  · rw [hf] at hf'
    cases hf'
    exact ⟨rfl, rfl⟩
  · rw [hf] at hf'; contradiction
  · rw [hf] at hf'; contradiction
  · rw [hu] at hu'
    cases hu'
    exact ⟨rfl, rfl⟩

/-- Unlinking a file changes the directory. -/
theorem Chosen.base_eq {n : CStr} (h : Chosen dir n slot base) (heq : base = dir) :
    entryUsed dir slot = false := by
  have := h.base_spec.1
  rwa [heq] at this

/-- A write that is clear of the rest lies behind every other entry. -/
theorem Clear.behind {n : CStr} {j : Nat} (h : Clear base size) (hch : Chosen dir n slot base)
    (hj : j < alfsMaxFiles) (hu : entryUsed dir j) (hne : j ≠ slot) :
    entrySize dir j = 0 ∨
      alfsDataStart ≤ entryStart dir j ∧ entryStart dir j + sectorsOf (entrySize dir j) ≤
        highWater base := by
  obtain ⟨hst, hsz, hfl⟩ := entry_congr (hch.base_spec.2 j hne)
  have hj' := h.1 j hj ((entryUsed_congr hfl).1.trans hu)
  rwa [hst, hsz] at hj'

/-- Reads of the other entries survive a write that is clear of them. -/
theorem Clear.read_eq {n : CStr} (h : Clear base size) (hr : fs.ready) (hr' : fs'.ready)
    (hch : Chosen fs.dir n slot base) {j : Nat}
    (hent : ∀ k < 64, fs'.dir (64 * j + k) = fs.dir (64 * j + k))
    (hframe : ∀ a, 512 * alfsDataStart ≤ a → a < 512 * highWater base →
      fs'.disk.data a = fs.disk.data a)
    (hj : j < alfsMaxFiles) (hu : entryUsed fs.dir j) (hne : j ≠ slot) (max : Nat) :
    (alfsRead fs'.quiet j max).1 = (alfsRead fs.quiet j max).1 := by
  have hj' := h.behind hch hj hu hne
  have hlt : highWater base ≤ 2 ^ 28 := by have := h.2; omega
  refine alfsRead_congr hr hr' hj hu ?_ hent (fun k hk => ?_) max
  · obtain hz | ⟨-, hend⟩ := hj'
    · exact .inl hz
    · exact .inr (by omega)
  · obtain hz | ⟨hlo, hend⟩ := hj'
    · omega
    · unfold sectorsOf at hend
      exact hframe _ (by omega) (by omega)

/-- A file written over itself reads as before when its bytes are. -/
theorem read_eq_of_same {n : CStr} (hr : fs.ready) (hr' : fs'.ready)
    (hslot : slot < alfsMaxFiles) (hu : entryUsed fs.dir slot) (hsize : size < 2 ^ 32)
    (hend : highWater base + writtenSectors size ≤ 2 ^ 28) (hdir : fs'.dir = fs.dir)
    (hsame : setEntry base slot n (highWater base) size alfsFlagUsed = fs.dir)
    (hdata : ∀ k < size, fs'.disk.data (512 * highWater base + k) =
      fs.disk.data (512 * highWater base + k))
    (max : Nat) :
    (alfsRead fs'.quiet slot max).1 = (alfsRead fs.quiet slot max).1 := by
  obtain ⟨hst, hsz, -, -⟩ := setEntry_self base slot n (highWater_lt base) hsize
    (show alfsFlagUsed < 2 ^ 32 by decide)
  rw [hsame] at hst hsz
  have hwritten := sectorsOf_le_writtenSectors size
  refine alfsRead_congr hr hr' hslot hu (.inr ?_) (fun k _ => by rw [hdir]) (fun k hk => ?_) max
  · rw [hst, hsz]; omega
  · rw [hst]
    exact hdata k (hsz ▸ hk)

/-- Which ending a write has, in terms of the script. -/
theorem WriteOutcome.script_cases {name : CStr} {src : Bytes} {r : Int × Fs}
    (h : WriteOutcome fs slot name src size r) :
    (r.1 = -1 ∧ r.2.dir = fs.dir ∧ ∃ k < dataTransfers size, failsAt fs.disk.script k) ∨
    (r.1 = -1 ∧ r.2.dir = setEntry fs.dir slot name (highWater fs.dir) size alfsFlagUsed ∧
      (∀ k < dataTransfers size, failsAt fs.disk.script k = false) ∧
      failsAt fs.disk.script (dataTransfers size)) ∨
    (r.1 = slot ∧ ∀ k ≤ dataTransfers size, failsAt fs.disk.script k = false) := by
  obtain ⟨hok, hscript⟩ := writeData_script src (highWater fs.dir) size fs.disk
  cases h with
  | dataFailed d hdata =>
    rw [hdata] at hok
    refine .inl ⟨rfl, rfl, ?_⟩
    by_contra hno
    refine absurd (hok.mpr fun k hk => ?_) (by simp)
    by_contra hk'
    exact hno ⟨k, hk, by simpa using hk'⟩
  | flushFailed d fs' hdata hflush =>
    rw [hdata] at hok hscript
    have hres := flush_result hflush
    rw [hscript rfl, failsAt_drop] at hres
    exact .inr (.inl ⟨rfl, (flush_keeps hflush).1, hok.mp rfl, by simpa using hres⟩)
  | written d fs' hdata hflush =>
    rw [hdata] at hok hscript
    have hres := flush_result hflush
    rw [hscript rfl, failsAt_drop] at hres
    refine .inr (.inr ⟨rfl, fun k hk => ?_⟩)
    by_cases hlt : k < dataTransfers size
    · exact hok.mp rfl k hlt
    · rw [show k = dataTransfers size + 0 by omega]
      simpa using hres

/-- What `alfs_write` returns does not depend on the bytes it writes. -/
theorem alfsWrite_returns_congr (fs : Fs) (n : CStr) (buf buf' : Bytes) (size : Nat) :
    (alfsWrite fs (some n) (some buf) size).1 = (alfsWrite fs (some n) (some buf') size).1 := by
  obtain ⟨heq, hno⟩ | ⟨n1, slot, base, hn, hready, -, hch, hout⟩ :=
    alfsWrite_cases fs (some n) (some buf) size <;>
    obtain ⟨heq', hno'⟩ | ⟨n2, slot', base', hn', hready', -, hch', hout'⟩ :=
      alfsWrite_cases fs (some n) (some buf') size
  · rw [heq, heq']
  · exact absurd hch' (hno hready' (by simp) n2 hn' slot' base')
  · exact absurd hch (hno' hready (by simp) n1 hn slot base)
  · cases hn
    cases hn'
    obtain ⟨rfl, rfl⟩ := hch.unique hch'
    obtain ⟨hret, -, j, hj, hfail⟩ | ⟨hret, -, -, hfail⟩ | ⟨hret, hok⟩ := hout.script_cases <;>
      obtain ⟨hret', -, j', hj', hfail'⟩ | ⟨hret', -, -, hfail'⟩ | ⟨hret', hok'⟩ :=
        hout'.script_cases <;>
      rw [hret, hret']
    · simp [hok' j (by omega)] at hfail
    · simp [hok' _ le_rfl] at hfail
    · simp [hok j' (by omega)] at hfail'
    · simp [hok _ le_rfl] at hfail'

theorem write_leavesNothing (fs : Fs) (hr : fs.ready) {name : Option CStr}
    {buf : Option Bytes} {size : UInt32}
    (hclean : FailsClean fs fs.disk.script (.write name buf size)) :
    LeavesNothing fs (alfsWrite fs name buf size.toNat) := by
  obtain ⟨heq, -⟩ | ⟨n, slot, base, rfl, -, hb, hch, hout⟩ := alfsWrite_cases fs name buf size.toNat
  · rw [heq]; exact leavesNothing_refl fs
  · have hends := hout.script_cases
    intro hret
    obtain (⟨hnone, hsize⟩ | hrefused) | hfine | ⟨n', hn', slot', base', hch', hclear, hwhy⟩ :=
      hclean
    · exact absurd (hb hnone) hsize
    · exact absurd hch (hrefused n rfl slot base)
    · -- no transfer fails, so the call returns its slot
      obtain ⟨-, -, k, hk, hfails⟩ | ⟨-, -, -, hfails⟩ | ⟨hret', -⟩ := hends
      · rw [hfine k (by omega)] at hfails; contradiction
      · rw [hfine _ le_rfl] at hfails; contradiction
      · omega
    · cases Option.some.inj hn'
      obtain ⟨rfl, rfl⟩ := hch.unique hch'
      obtain ⟨hready, hframe, hstored⟩ := hout.effect hch.lt hclear.2
      have hother : (alfsWrite fs (some n) buf size.toNat).2.dir = fs.dir →
          ∀ j < alfsMaxFiles, entryUsed fs.dir j = true → j ≠ slot' → ∀ max,
          (alfsRead (alfsWrite fs (some n) buf size.toNat).2.quiet j max).1 =
            (alfsRead fs.quiet j max).1 :=
        fun hdir j hj hu hne max => hclear.read_eq hr (hready.trans hr) hch
          (fun _ _ => by rw [hdir])
          (fun a hlo ha => hframe a hlo (.inl ha)) hj hu hne max
      obtain ⟨hnew, k, hk, hfails⟩ | ⟨hdata, hsame, hcontent⟩ := hwhy
      · obtain ⟨-, hdir, -⟩ | ⟨-, -, hok, -⟩ | ⟨hret', -⟩ := hends
        · refine ⟨hdir.trans hnew, fun j hj hu max => hother (hdir.trans hnew) j hj hu ?_ max⟩
          rintro rfl
          rw [hch.base_eq hnew] at hu
          contradiction
        · rw [hok k hk] at hfails; contradiction
        · omega
      · obtain ⟨-, -, k, hk, hfails⟩ | ⟨-, hfilled, -, -⟩ | ⟨hret', -⟩ := hends
        · rw [hdata k hk] at hfails; contradiction
        · have hdir := hfilled.trans hsame
          refine ⟨hdir, fun j hj hu max => ?_⟩
          by_cases hne : j = slot'
          · subst hne
            refine read_eq_of_same hr (hready.trans hr) hch.lt hu size.toNat_lt hclear.2 hdir hsame
              (fun k hk => ?_) max
            obtain ⟨-, hbase⟩ | ⟨-, -, hstore⟩ := hstored
            · rw [hch.base_eq (hbase.symm.trans hdir)] at hu; contradiction
            · rw [hstore k hk, hcontent k hk]
          · exact hother hdir j hj hu hne max
        · omega

theorem failsClean_write (fs : Fs) (hr : fs.ready) {name : Option CStr}
    {buf : Option Bytes} {size : UInt32} (hclear : ClearFor fs.dir (.write name buf size))
    (hnothing : LeavesNothing fs (alfsWrite fs name buf size.toNat)) :
    FailsClean fs fs.disk.script (.write name buf size) := by
  obtain ⟨-, hwhy⟩ | ⟨n, slot, base, rfl, -, -, hch, hout⟩ := alfsWrite_cases fs name buf size.toNat
  · refine .inl ?_
    by_cases hguard : buf.isNone = true → size.toNat = 0
    · exact .inr (hwhy hr hguard)
    · exact .inl (by simpa using hguard)
  · have hclear := hclear slot base hch
    obtain ⟨hready, -, hstored⟩ := hout.effect hch.lt hclear.2
    refine .inr ?_
    obtain ⟨hret, hdir, hfails⟩ | ⟨hret, hfilled, hok, -⟩ | ⟨-, hok⟩ := hout.script_cases
    · -- the old version is not unlinked, so the name is new
      have hnew : base = fs.dir := hdir.symm.trans (hnothing hret).1
      exact .inr ⟨n, rfl, slot, base, hch, hclear, .inl ⟨hnew, hfails⟩⟩
    · obtain ⟨hdir, hreads⟩ := hnothing hret
      have hsame := hfilled.symm.trans hdir
      obtain ⟨hst, hsz, hfl, -⟩ := setEntry_self base slot n (highWater_lt base) size.toNat_lt
        (show alfsFlagUsed < 2 ^ 32 by decide)
      rw [hsame] at hst hsz hfl
      have hused : entryUsed fs.dir slot := (entryUsed_of_flags hfl).1.trans rfl
      have hwritten := sectorsOf_le_writtenSectors size.toNat
      have hend := hclear.2
      have hlba : entryStart fs.dir slot + sectorsOf (entrySize fs.dir slot) ≤ 2 ^ 28 := by
        rw [hst, hsz]; omega
      -- the file itself reads as before, so the buffer holds what it contained
      have hread := hreads slot hch.lt hused size.toNat
      generalize alfsWrite fs (some n) buf size.toNat = r at *
      rw [alfsRead_quiet fs.quiet rfl hr hch.lt hused hlba, alfsRead_quiet r.2.quiet rfl
        (hready.trans hr) hch.lt (show entryUsed r.2.dir slot = true by rw [hdir]; exact hused)
        (show entryStart r.2.dir slot + sectorsOf (entrySize r.2.dir slot) ≤ 2 ^ 28 by
          rw [hdir]; exact hlba)] at hread
      have hbytes : slice r.2.disk.data (512 * entryStart r.2.dir slot)
          (min (entrySize r.2.dir slot) size.toNat) =
          slice fs.disk.data (512 * entryStart fs.dir slot)
          (min (entrySize fs.dir slot) size.toNat) := Option.some.inj hread
      rw [hdir, hst, hsz, Nat.min_self] at hbytes
      refine .inr ⟨n, rfl, slot, base, hch, hclear, .inr ⟨hok, hsame, fun k hk => ?_⟩⟩
      obtain ⟨-, hbase⟩ | ⟨-, -, hstore⟩ := hstored
      · rw [hch.base_eq (hbase.symm.trans hdir)] at hused; contradiction
      · rw [← eq_of_slice_eq hbytes k hk, hstore k hk]
    · exact .inl hok

/-! ## every call -/

/-- **Failed calls**: a call of a mounted file system leaves nothing behind
when it fails if it is one of `FailsClean`, and, where writes are clear of the
used entries, only then. -/
theorem alfs_failed_call_leaves_nothing {fs : Fs} (hr : fs.ready = true) (o : List AtaOutcome)
    (c : AlfsCall) :
    (FailsClean fs o c → LeavesNothing fs (c.run o fs)) ∧
    (ClearFor fs.dir c → LeavesNothing fs (c.run o fs) → FailsClean fs o c) := by
  cases c with
  | write name buf size =>
    exact ⟨fun h => write_leavesNothing (fs.withScript o) hr h,
      fun hclear h => failsClean_write (fs.withScript o) hr hclear h⟩
  | mkdir path =>
    have h := mkdir_leavesNothing_iff (fs.withScript o) hr path
    exact ⟨h.mpr, fun _ => h.mp⟩
  | delete name =>
    have h := delete_leavesNothing_iff (fs.withScript o) hr name
    exact ⟨h.mpr, fun _ => h.mp⟩

/-- One file of three bytes. -/
def oneFile : Bytes := setEntry (fun _ => 0) 0 letterA 7 3 alfsFlagUsed

theorem alfs_failed_call_leaves_nothing_new_name :
    LeavesNothing (blankFs oneFile)
      ((AlfsCall.write (some letterB) (some fun _ => 1) 3).run [.fail 0 fun _ => 9]
        (blankFs oneFile)) := by
  refine (alfs_failed_call_leaves_nothing (show (blankFs oneFile).ready = true from rfl) _ _).1 ?_
  refine .inr (.inr ⟨letterB, rfl, 1, oneFile, .inr ⟨?_, ?_, rfl⟩, ⟨?_, ?_⟩,
    .inl ⟨rfl, 0, ?_, ?_⟩⟩) <;>
    decide +kernel

/-- Overwriting the file fails on its first transfer, and the file is gone. -/
theorem alfs_failed_overwrite_loses_file :
    let r := (AlfsCall.write (some letterA) (some fun _ => 1) 3).run [.fail 0 fun _ => 9]
      (blankFs oneFile)
    (blankFs oneFile).ready = true ∧ r.1 = -1 ∧ r.2.dir ≠ oneFile ∧ entryUsed oneFile 0 = true ∧
    (alfsRead (blankFs oneFile).quiet 0 3).1 = some [0, 0, 0] ∧
      (alfsRead r.2.quiet 0 3).1 = none := by
  refine ⟨rfl, by decide +kernel, fun h => ?_, by decide +kernel, by decide +kernel,
    by decide +kernel⟩
  -- the flags byte of the entry
  exact absurd (congrFun h 60) (by decide +kernel)

end AliOS
