import AliOS.Alfs

/-!
# AliOS.Alfs.Transfer

What the loops of AliFS that talk to the disk do, one lemma per loop: reading
an extent delivers its bytes, writing one changes only its own sectors and, if
it succeeds, leaves the buffer there.  The batches of 255 sectors and the
bounce buffer disappear behind these lemmas.
-/

namespace AliOS

open Lib List

variable {d d' : Disk} {lba count i full size a : Nat} {bytes : List UInt8}

/-- Sectors a file of this size occupies: `ceil(size / 512)`. -/
def sectorsOf (size : Nat) : Nat := (size + 511) / 512

/-- Sectors `alfs_write` writes: an empty file takes one, too. -/
def writtenSectors (size : Nat) : Nat := if size = 0 then 1 else sectorsOf size

theorem sectorsOf_le_writtenSectors (size : Nat) : sectorsOf size ≤ writtenSectors size := by
  unfold writtenSectors sectorsOf
  split <;> omega

theorem batchOf_pos {n : Nat} (h : 0 < n) : 0 < batchOf n := by
  unfold batchOf; split <;> omega

theorem batchOf_le (n : Nat) : batchOf n ≤ n := by
  unfold batchOf; split <;> omega

/-- The same drive with no failure to come. -/
def Disk.quiet (d : Disk) : Disk := { d with script := [] }

theorem Disk.data_eq (h : d'.quiet = d.quiet) : d'.data = d.data := congrArg (·.data) h

/-- The same file system with no failure to come. -/
def Fs.quiet (fs : Fs) : Fs := { fs with disk := fs.disk.quiet }

/-! ## reading -/

/-- Everything that a read of the drive can do: without faults it succeeds. -/
theorem ataRead_cases (d : Disk) (lba count : Nat) :
    ∃ d', d'.quiet = d.quiet ∧ (d.script = [] → d' = d) ∧
    (ataRead d lba count = (some (slice d.data (ataByte lba count) (512 * count)), d') ∨
      d.script ≠ [] ∧ ataRead d lba count = (none, d')) := by
  unfold ataRead
  by_cases h0 : count = 0
  · exact ⟨d, rfl, fun _ => rfl, .inl (by simp [h0, slice])⟩
  · rw [if_neg h0]
    cases hs : d.script with
    | nil => exact ⟨d, rfl, fun _ => rfl, .inl rfl⟩
    | cons x rest =>
      cases x with
      | ok => exact ⟨{ d with script := rest }, rfl, by simp, .inl rfl⟩
      | fail _ _ => exact ⟨{ d with script := rest }, rfl, by simp, .inr ⟨by simp, rfl⟩⟩

theorem ataRead_quiet (hd : d.script = []) (hlba : lba < 2 ^ 28) :
    ataRead d lba count = (some (slice d.data (512 * lba) (512 * count)), d) := by
  obtain ⟨d', -, hstill, hread | ⟨hfault, -⟩⟩ := ataRead_cases d lba count
  · rw [hread, hstill hd, ataByte_eq count hlba]
    rfl
  · exact absurd hd hfault

/-- A read that succeeds delivers what it would on a drive without faults. -/
theorem ataRead_of_some (h : ataRead d lba count = (some bytes, d')) : d'.quiet = d.quiet ∧
      bytes = slice d.data (ataByte lba count) (512 * count) ∧
        ataRead d.quiet lba count = (some bytes, d.quiet) := by
  obtain ⟨d1, hquiet, -, hread | ⟨-, hread⟩⟩ := ataRead_cases d lba count <;> rw [hread] at h <;>
    cases h
  obtain ⟨d2, -, hstill, hread' | ⟨hfault, -⟩⟩ := ataRead_cases d.quiet lba count
  · exact ⟨hquiet, rfl, by rw [hread', hstill rfl]; rfl⟩
  · exact absurd rfl hfault

/-- A read that succeeds delivers the sectors and leaves the data alone. -/
theorem ataRead_some (hlba : lba < 2 ^ 28) (h : ataRead d lba count = (some bytes, d')) :
    bytes = slice d.data (512 * lba) (512 * count) ∧ d'.data = d.data := by
  obtain ⟨hquiet, hbytes, -⟩ := ataRead_of_some h
  rw [ataByte_eq count hlba] at hbytes
  exact ⟨hbytes, Disk.data_eq hquiet⟩

theorem length_ataDelivered_le (d : Disk) (lba : Nat) (hc : 0 < count) :
    (ataDelivered d lba count).length ≤ 512 * count := by
  unfold ataDelivered sectorSize
  split
  · next moved _ _ _ =>
      have hlt := Nat.mod_lt moved hc
      rw [length_slice]
      omega
  · simp

/-- There is an entry `idx` to read. -/
def Fs.Has (fs : Fs) (idx : Int) : Prop :=
  fs.ready = true ∧ 0 ≤ idx ∧ idx < alfsMaxFiles ∧ entryUsed fs.dir idx.toNat = true

instance (fs : Fs) (idx : Int) : Decidable (fs.Has idx) := inferInstanceAs (Decidable (_ ∧ _))

/-- The checks at the start of the functions that take an index. -/
theorem Fs.guarded {α : Type} (fs : Fs) (idx : Int) (a b : α) :
    (if !fs.ready ∨ idx < 0 ∨ idx ≥ alfsMaxFiles then a else if !entryUsed fs.dir idx.toNat
      then a else b) =
      if fs.Has idx then b else a := by
  by_cases h : fs.Has idx
  · obtain ⟨hr, hlo, hhi, hu⟩ := h
    rw [if_neg (by simp [hr]; omega), if_neg (by simp [hu]), if_pos ⟨hr, hlo, hhi, hu⟩]
  · split_ifs with hidx hu
    · rfl
    · rfl
    · simp only [not_or] at hidx
      exact absurd ⟨by simpa using hidx.1, by omega, by omega, by simpa using hu⟩ h

theorem Fs.has_natCast {fs : Fs} (hr : fs.ready) (hi : i < alfsMaxFiles)
    (hused : entryUsed fs.dir i) : fs.Has i := ⟨hr, by omega, by omega, hused⟩

/-! ### alfs_read -/

/-- The sector loop of `alfs_read` appends the rest of the complete sectors. -/
theorem readSectors_quiet (hd : d.script = []) {done : Nat} (hlba : lba + full ≤ 2 ^ 28)
    (hle : done ≤ full) (acc : List UInt8) :
    readSectors lba full done acc d =
      (some (acc ++ slice d.data (512 * (lba + done)) (512 * (full - done))), d) := by
  induction hn : full - done using Nat.strongRecOn generalizing done acc with
  | ind n ih =>
    rw [readSectors]
    by_cases hlt : done < full
    · have hb := batchOf_pos (n := full - done) (by omega)
      have hb' := batchOf_le (full - done)
      have hmod : (lba + done) % 2 ^ 32 = lba + done := Nat.mod_eq_of_lt (by omega)
      rw [dif_pos hlt, hmod, ataRead_quiet hd (by omega)]
      dsimp only
      rw [ih _ (by omega) (show done + batchOf (full - done) ≤ full by omega) _ rfl,
        append_assoc,
        show 512 * (lba + (done + batchOf (full - done))) =
          512 * (lba + done) + 512 * batchOf (full - done) by omega,
        slice_append, show 512 * batchOf (full - done) +
          512 * (full - (done + batchOf (full - done))) = 512 * n by omega]
    · rw [dif_neg hlt, show n = 0 by omega]
      simp [slice]

theorem readSectors_of_some {done : Nat} {acc : List UInt8}
    (h : readSectors lba full done acc d = (some bytes, d')) :
    readSectors lba full done acc d.quiet = (some bytes, d.quiet) ∧ d'.quiet = d.quiet := by
  induction hn : full - done using Nat.strongRecOn generalizing done acc d with
  | ind n ih =>
    rw [readSectors] at h ⊢
    by_cases hlt : done < full
    · have hpos := batchOf_pos (show 0 < full - done by omega)
      rw [dif_pos hlt] at h ⊢
      cases hread : ataRead d ((lba + done) % 2 ^ 32) (batchOf (full - done)) with
      | mk res d1 =>
        rw [hread] at h
        cases res with
        | none => cases h
        | some sectors =>
          obtain ⟨hsame, -, hquiet⟩ := ataRead_of_some hread
          obtain ⟨hrest, hsame'⟩ := ih _ (by omega) h rfl
          rw [hsame] at hrest hsame'
          rw [hquiet]
          exact ⟨hrest, hsame'⟩
    · rw [dif_neg hlt] at h ⊢
      cases h
      exact ⟨rfl, rfl⟩

/-- The transfers of `alfs_read`. -/
def readBytes (lba bytes : Nat) (d : Disk) : Option (List UInt8) × Disk :=
  match readSectors lba (bytes / 512) 0 [] d with
  | (none, d) => (none, d)
  | (some dst, d) =>
    if bytes % 512 = 0 then (some dst, d)
    else match ataRead d ((lba + bytes / 512) % 2 ^ 32) 1 with
      | (none, d) => (none, d)
      | (some sbuf, d) => (some (dst ++ sbuf.take (bytes % 512)), d)

theorem alfsRead_eq (fs : Fs) (idx : Int) (max : Nat) : alfsRead fs idx max =
    if fs.Has idx then
      let res := readBytes (entryStart fs.dir idx.toNat)
        (min (entrySize fs.dir idx.toNat) max) fs.disk
      (res.1, { fs with disk := res.2 })
    else (none, fs) := by
  have hbytes : (if entrySize fs.dir idx.toNat < max then entrySize fs.dir idx.toNat else max) =
      min (entrySize fs.dir idx.toNat) max := by split <;> omega
  unfold alfsRead
  rw [Fs.guarded]
  refine ite_congr rfl (fun _ => ?_) fun _ => rfl
  dsimp only
  rw [hbytes]
  generalize min (entrySize fs.dir idx.toNat) max = bytes
  by_cases h0 : bytes = 0
  · simp [h0, readBytes, readSectors]
  · rw [if_neg h0, readBytes]
    cases readSectors (entryStart fs.dir idx.toNat) (bytes / 512) 0 [] fs.disk with
    | mk res d =>
      cases res with
      | none => rfl
      | some dst =>
        dsimp only
        split
        · rfl
        · cases ataRead d ((entryStart fs.dir idx.toNat + bytes / 512) % 2 ^ 32) 1 with
          | mk res d => cases res <;> rfl

/-- **Reading back**: `alfs_read` of a used entry whose extent lies below
sector 2^28 delivers the first bytes of that extent. -/
theorem alfsRead_quiet (fs : Fs) (hd : fs.disk.script = []) (hr : fs.ready) (hi : i < alfsMaxFiles)
    (hused : entryUsed fs.dir i)
    (hlba : entryStart fs.dir i + sectorsOf (entrySize fs.dir i) ≤ 2 ^ 28) (max : Nat) :
    alfsRead fs i max =
      (some (slice fs.disk.data (512 * entryStart fs.dir i) (min (entrySize fs.dir i) max)),
        fs) := by
  unfold sectorsOf at hlba
  rw [alfsRead_eq, if_pos (Fs.has_natCast hr hi hused), Int.toNat_natCast]
  generalize hb : min (entrySize fs.dir i) max = bytes
  unfold readBytes
  rw [readSectors_quiet hd (by omega) (Nat.zero_le _)]
  simp only [Nat.add_zero, Nat.sub_zero, nil_append]
  by_cases ht : bytes % 512 = 0
  · rw [if_pos ht, show 512 * (bytes / 512) = bytes by omega]
  · have hmod : (entryStart fs.dir i + bytes / 512) % 2 ^ 32 = entryStart fs.dir i + bytes / 512 :=
      Nat.mod_eq_of_lt (by omega)
    have htake : (slice fs.disk.data (512 * (entryStart fs.dir i + bytes / 512)) (512 * 1)).take
        (bytes % 512) =
        slice fs.disk.data (512 * entryStart fs.dir i + 512 * (bytes / 512)) (bytes % 512) := by
      rw [slice_take (by omega), Nat.mul_add]
    rw [if_neg ht, hmod, ataRead_quiet hd (by omega)]
    simp only [htake, slice_append]
    rw [show 512 * (bytes / 512) + bytes % 512 = bytes by omega]

theorem readBytes_of_some {n : Nat} (h : readBytes lba n d = (some bytes, d')) :
    (readBytes lba n d.quiet).1 = some bytes ∧ d'.quiet = d.quiet := by
  unfold readBytes at h ⊢
  cases hsect : readSectors lba (n / 512) 0 [] d with
  | mk res d1 =>
    rw [hsect] at h
    cases res with
    | none => cases h
    | some dst =>
      obtain ⟨hquiet, hsame⟩ := readSectors_of_some hsect
      rw [hquiet]
      dsimp only at h ⊢
      by_cases htail : n % 512 = 0
      · rw [if_pos htail] at h ⊢
        cases h
        exact ⟨rfl, hsame⟩
      · rw [if_neg htail] at h ⊢
        cases hread : ataRead d1 ((lba + n / 512) % 2 ^ 32) 1 with
        | mk res d2 =>
          rw [hread] at h
          cases res with
          | none => cases h
          | some sbuf =>
            obtain ⟨hsame', -, hquiet'⟩ := ataRead_of_some hread
            rw [← hsame, hquiet']
            cases h
            exact ⟨rfl, hsame'⟩

theorem alfsRead_of_some {fs fs' : Fs} {idx : Int} {max : Nat}
    (h : alfsRead fs idx max = (some bytes, fs')) :
    (alfsRead fs.quiet idx max).1 = some bytes ∧ fs'.quiet = fs.quiet := by
  rw [alfsRead_eq] at h ⊢
  by_cases hhas : fs.Has idx
  · have hquiet : fs.quiet.Has idx := hhas
    rw [if_pos hhas] at h
    rw [if_pos hquiet]
    obtain ⟨hres, rfl⟩ := Prod.mk.inj h
    obtain ⟨hsome, hsame⟩ := readBytes_of_some (Prod.ext hres rfl)
    exact ⟨hsome, congrArg (fun d => { fs with disk := d }) hsame⟩
  · rw [if_neg hhas] at h
    cases h

/-! ### alfs_pread -/

/-- A turn of the loop of `alfs_pread` reads some sectors and takes a part of them.  Whole
sectors go straight into the buffer, a part of a sector through the bounce buffer. -/
theorem preadLoop_turn (start fileOff : Nat) {remaining : Nat} (h : 0 < remaining) :
    ∃ count chunk, 0 < chunk ∧ chunk ≤ remaining ∧ fileOff % 512 + chunk ≤ 512 * count ∧ ∀ acc d,
      (∀ bytes d', ataRead d ((start + fileOff / 512) % 2 ^ 32) count = (some bytes, d') →
        preadLoop start fileOff remaining acc d = preadLoop start (fileOff + chunk)
          (remaining - chunk)
          (acc ++ (bytes.drop (fileOff % 512)).take chunk) d') ∧
      ∀ d', ataRead d ((start + fileOff / 512) % 2 ^ 32) count = (none, d') →
        ∃ part, part.length ≤ remaining ∧
          preadLoop start fileOff remaining acc d = ((false, acc ++ part), d') := by
  by_cases hfull : fileOff % 512 = 0 ∧ remaining ≥ 512
  · have hpos := batchOf_pos (n := remaining / 512) (by omega)
    have hle := batchOf_le (remaining / 512)
    refine ⟨batchOf (remaining / 512), batchOf (remaining / 512) * 512, by omega, by omega,
      by omega, fun acc d => ?_⟩
    rw [preadLoop, dif_pos h]
    dsimp only
    rw [if_pos hfull]
    refine ⟨fun bytes d' hread => ?_, fun d' hread => ?_⟩
    · have hlen : bytes.length = batchOf (remaining / 512) * 512 := by
        rw [(ataRead_of_some hread).2.1, length_slice, Nat.mul_comm]
      rw [hread, hfull.1, drop_zero, List.take_of_length_le hlen.le]
    · have hdel := length_ataDelivered_le d ((start + fileOff / 512) % 2 ^ 32) hpos
      exact ⟨ataDelivered d ((start + fileOff / 512) % 2 ^ 32) (batchOf (remaining / 512)),
        by omega, by rw [hread]⟩
  · refine ⟨1, min remaining (512 - fileOff % 512), by omega, by omega, by omega, fun acc d => ?_⟩
    have hchunk : (if 512 - fileOff % 512 > remaining then remaining else 512 - fileOff % 512) =
        min remaining (512 - fileOff % 512) := by split <;> omega
    rw [preadLoop, dif_pos h]
    rw [if_neg hfull, hchunk]
    exact ⟨fun bytes d' hread => by rw [hread],
      fun d' hread => ⟨[], Nat.zero_le _, by rw [hread, append_nil]⟩⟩

/-- The loop of `alfs_pread` appends at most what is asked for, and all of it if it succeeds. -/
theorem preadLoop_spec (start fileOff remaining : Nat) (acc : List UInt8) (d : Disk) :
    ∃ ok bytes d', preadLoop start fileOff remaining acc d = ((ok, acc ++ bytes), d') ∧
      d'.quiet = d.quiet ∧
      bytes.length ≤ remaining ∧ (d.script = [] → ok ∧ d' = d) ∧ (ok → bytes.length = remaining ∧
        (start + sectorsOf (fileOff + remaining) ≤ 2 ^ 28 →
          bytes = slice d.data (512 * start + fileOff) remaining)) := by
  -- induction on the bytes that are left
  induction remaining using Nat.strongRecOn generalizing fileOff acc d with
  | ind remaining ih =>
    by_cases hpos : 0 < remaining
    · obtain ⟨count, chunk, h0, hle, hin, hturn⟩ := preadLoop_turn start fileOff hpos
      obtain ⟨d1, hquiet, hstill, hread | ⟨hfault, hread⟩⟩ :=
        ataRead_cases d ((start + fileOff / 512) % 2 ^ 32) count
      · have hrun := (hturn acc d).1 _ _ hread
        rw [slice_drop_take hin] at hrun
        obtain ⟨ok, bytes, d', hloop, hsame, hlen, hquiet', hok⟩ :=
          ih (remaining - chunk) (by omega)
          (fileOff + chunk) (acc ++ slice d.data (ataByte ((start + fileOff / 512) % 2 ^ 32) count +
            fileOff % 512) chunk) d1
        rw [append_assoc] at hloop
        refine ⟨ok, _, d', hrun.trans hloop, hsame.trans hquiet, ?_, fun hd => ?_,
          fun hsome => ⟨?_, fun hlba => ?_⟩⟩
        · simp; omega
        · obtain rfl := hstill hd
          exact hquiet' hd
        · simp [(hok hsome).1]; omega
        · have hdata : d1.data = d.data := Disk.data_eq hquiet
          have hmod : (start + fileOff / 512) % 2 ^ 32 = start + fileOff / 512 :=
            Nat.mod_eq_of_lt (by unfold sectorsOf at hlba; omega)
          rw [(hok hsome).2
            (by rwa [show fileOff + chunk + (remaining - chunk) = fileOff + remaining by omega]),
            hdata, hmod, ataByte_eq count (by unfold sectorsOf at hlba; omega), sectorSize,
            show 512 * (start + fileOff / 512) + fileOff % 512 = 512 * start + fileOff by omega,
              ← Nat.add_assoc,
            slice_append, show chunk + (remaining - chunk) = remaining by omega]
      · obtain ⟨part, hpart, hloop⟩ := (hturn acc d).2 _ hread
        exact ⟨false, part, d1, hloop, hquiet, hpart, fun hd => absurd hd hfault, by simp⟩
    · refine ⟨true, [], d, ?_, rfl, Nat.zero_le _, fun _ => ⟨rfl, rfl⟩,
        fun _ => ⟨by simp; omega, fun _ => ?_⟩⟩
      · rw [preadLoop, dif_neg hpos, append_nil]
      · rw [show remaining = 0 by omega]
        rfl

theorem alfsPread_eq (fs : Fs) (idx : Int) (len off : Nat) : alfsPread fs idx len off =
    if fs.Has idx then
      let bytes := min len (entrySize fs.dir idx.toNat - off)
      let res := preadLoop (entryStart fs.dir idx.toNat) off bytes [] fs.disk
      ((if res.1.1 then asInt bytes else -1, res.1.2), { fs with disk := res.2 })
    else ((-1, []), fs) := by
  have hbytes : (if len < entrySize fs.dir idx.toNat - off then len
      else entrySize fs.dir idx.toNat - off) =
      min len (entrySize fs.dir idx.toNat - off) := by split <;> omega
  unfold alfsPread
  rw [Fs.guarded]
  refine ite_congr rfl (fun _ => ?_) fun _ => rfl
  dsimp only
  rw [hbytes]
  split
  · next hoff => simp [Nat.sub_eq_zero_of_le hoff, preadLoop, asInt]
  · split
    · next h0 => simp [h0, preadLoop, asInt]
    · rfl

/-- `alfs_pread` of a used entry whose extent lies below sector 2^28 delivers the bytes
from `off` on, up to the end of the file. -/
theorem alfsPread_quiet (fs : Fs) (hd : fs.disk.script = []) (hr : fs.ready) (hi : i < alfsMaxFiles)
    (hused : entryUsed fs.dir i)
    (hlba : entryStart fs.dir i + sectorsOf (entrySize fs.dir i) ≤ 2 ^ 28) (len off : Nat) :
    alfsPread fs i len off = ((asInt (min len (entrySize fs.dir i - off)),
      slice fs.disk.data (512 * entryStart fs.dir i + off) (min len (entrySize fs.dir i - off))),
        fs) := by
  rw [alfsPread_eq, if_pos (Fs.has_natCast hr hi hused), Int.toNat_natCast]
  generalize hbytes : min len (entrySize fs.dir i - off) = bytes
  obtain ⟨ok, got, d, hloop, -, -, hstill, hok⟩ :=
    preadLoop_spec (entryStart fs.dir i) off bytes [] fs.disk
  obtain ⟨rfl, rfl⟩ := hstill hd
  obtain ⟨hlen, hgot⟩ := hok rfl
  have hgot : got = slice fs.disk.data (512 * entryStart fs.dir i + off) bytes := by
    by_cases h0 : bytes = 0
    · rw [h0] at hlen ⊢
      exact length_eq_zero_iff.mp hlen
    · refine hgot ?_
      unfold sectorsOf at hlba ⊢
      omega
  dsimp only
  rw [hloop, hgot]
  rfl

/-- A read that succeeds, on a drive with whatever faults: the bytes from `off` on, up to the end
of the file. -/
theorem alfsPread_some {fs : Fs} {idx : Int} {len off : Nat}
    (hok : 0 ≤ (alfsPread fs idx len off).1.1)
    (hlba : min len (entrySize fs.dir idx.toNat - off) = 0 ∨ entryStart fs.dir idx.toNat +
      sectorsOf (off + min len (entrySize fs.dir idx.toNat - off)) ≤ 2 ^ 28) :
    (alfsPread fs idx len off).1.2 = slice fs.disk.data (512 * entryStart fs.dir idx.toNat + off)
        (min len (entrySize fs.dir idx.toNat - off)) ∧
      (alfsPread fs idx len off).2.disk.data = fs.disk.data := by
  rw [alfsPread_eq] at hok ⊢
  by_cases hhas : fs.Has idx
  · rw [if_pos hhas] at hok ⊢
    dsimp only at hok ⊢
    generalize min len (entrySize fs.dir idx.toNat - off) = bytes at *
    obtain ⟨ok, got, d, hloop, hsame, -, -, hsome⟩ :=
      preadLoop_spec (entryStart fs.dir idx.toNat) off bytes [] fs.disk
    rw [hloop] at hok ⊢
    cases ok with
    | false => simp at hok
    | true =>
      obtain ⟨hlen, hgot⟩ := hsome rfl
      refine ⟨?_, Disk.data_eq hsame⟩
      obtain rfl | hlba := hlba
      · exact length_eq_zero_iff.mp hlen
      · exact hgot hlba
  · rw [if_neg hhas] at hok
    simp at hok

/-- `alfs_pread` stores at most the bytes from `off` to the end of the file, and all that were
asked for if it succeeds. -/
theorem length_alfsPread (fs : Fs) (idx : Int) (len off : Nat) :
    (alfsPread fs idx len off).1.2.length ≤ min len (alfsSize fs idx - off) ∧
      (0 ≤ (alfsPread fs idx len off).1.1 →
        (alfsPread fs idx len off).1.2.length = min len (alfsSize fs idx - off)) := by
  rw [alfsPread_eq]
  by_cases hhas : fs.Has idx
  · have hsize : alfsSize fs idx = entrySize fs.dir idx.toNat :=
      (fs.guarded idx _ _).trans (if_pos hhas)
    obtain ⟨ok, got, d, hloop, -, hle, -, hsome⟩ := preadLoop_spec (entryStart fs.dir idx.toNat) off
      (min len (entrySize fs.dir idx.toNat - off)) [] fs.disk
    rw [if_pos hhas, hsize]
    dsimp only
    rw [hloop]
    refine ⟨hle, fun hok => ?_⟩
    cases ok with
    | false => simp at hok
    | true => exact (hsome rfl).1
  · rw [if_neg hhas]
    simp

/-- `alfs_pread` stores at most `len` bytes. -/
theorem length_alfsPread_le (fs : Fs) (idx : Int) (len off : Nat) :
    (alfsPread fs idx len off).1.2.length ≤ len :=
  (length_alfsPread fs idx len off).1.trans (Nat.min_le_left _ _)

/-! ## writing -/

/-- A transfer takes the bytes of its sectors from the buffer and no others. -/
theorem ataWrite_congr (d : Disk) (lba count : Nat) {buf buf' : Bytes}
    (h : ∀ k < 512 * count, buf k = buf' k) :
    ataWrite d lba count buf = ataWrite d lba count buf' := by
  have hsame : blit d.data (ataByte lba count) (sectorSize * count) buf =
      blit d.data (ataByte lba count) (sectorSize * count) buf' := blit_congr h
  unfold ataWrite
  rw [hsame]

theorem writeSectors_congr {src src' : Bytes} (h : ∀ k < 512 * full, src k = src' k)
    (done : Nat) (d : Disk) :
    writeSectors src lba full done d = writeSectors src' lba full done d := by
  induction hn : full - done using Nat.strongRecOn generalizing done d with
  | ind n ih =>
    rw [writeSectors, writeSectors]
    by_cases hlt : done < full
    · have hpos := batchOf_pos (show 0 < full - done by omega)
      have hle := batchOf_le (full - done)
      have hbatch : ∀ k < 512 * batchOf (full - done),
          src (done * 512 + k) = src' (done * 512 + k) :=
        fun k hk => h _ (by omega)
      rw [dif_pos hlt, dif_pos hlt, ataWrite_congr d _ _ hbatch]
      split
      · rfl
      · exact ih _ (by omega) _ _ rfl
    · rw [dif_neg hlt, dif_neg hlt]

/-- `alfs_write` takes `size` bytes from its buffer. -/
theorem writeData_congr {src src' : Bytes} (h : ∀ k < size, src k = src' k) (d : Disk) :
    writeData src lba size d = writeData src' lba size d := by
  have htail : (fun k => if k < size % 512 then src (size / 512 * 512 + k) else 0) =
      fun k => if k < size % 512 then src' (size / 512 * 512 + k) else 0 := by
    funext k
    split
    · exact h _ (by omega)
    · rfl
  have hfull : writeSectors src lba (size / 512) 0 d = writeSectors src' lba (size / 512) 0 d :=
    writeSectors_congr (fun k hk => h k (by omega)) 0 d
  unfold writeData
  dsimp only
  rw [hfull, htail]

/-- The byte `a` is in none of the `count` sectors that are addressed as those from `lba` on: of a
sector number the low 28 bits count. -/
def Unaddressed (a lba count : Nat) : Prop :=
  a < 512 * (lba % 2 ^ 28) ∨ 512 * (lba % 2 ^ 28 + count) ≤ a

theorem unaddressed_of_lt (hlba : lba < 2 ^ 28) (ha : a < 512 * lba ∨ 512 * (lba + count) ≤ a) :
    Unaddressed a lba count := by
  unfold Unaddressed
  rwa [Nat.mod_eq_of_lt hlba]

theorem Unaddressed.mod (ha : Unaddressed a lba count) : Unaddressed a (lba % 2 ^ 32) count := by
  unfold Unaddressed at *
  rwa [Nat.mod_mod_of_dvd lba (by decide)]

theorem ataWrite_outside (d : Disk) (buf : Bytes) (ha : Unaddressed a lba count) :
    (ataWrite d lba count buf).2.data a = d.data a := by
  apply (ataWrite_spec d _ count buf).1
  rw [ataByte, sector_ataSetup]
  unfold sectorSize
  unfold Unaddressed at ha
  omega

/-- A successful transfer stores the buffer. -/
theorem ataWrite_stores (hlba : lba < 2 ^ 28) {buf : Bytes} (hok : (ataWrite d lba count buf).1)
    {k : Nat} (hk : k < 512 * count) :
    (ataWrite d lba count buf).2.data (512 * lba + k) = buf k := by
  have h := (ataWrite_spec d lba count buf).2 hok k (by unfold sectorSize; omega)
  rwa [ataByte_eq count hlba] at h

/-- The sector loop of `alfs_write` changes only sectors it addresses. -/
theorem writeSectors_outside (src : Bytes) {done : Nat} (d : Disk)
    (ha : ∀ s c, 0 < c → lba + done ≤ s → s + c ≤ lba + full → Unaddressed a s c) :
    (writeSectors src lba full done d).2.data a = d.data a := by
  -- induction on the sectors that are left
  induction hn : full - done using Nat.strongRecOn generalizing done d with
  | ind n ih =>
    rw [writeSectors]
    by_cases hlt : done < full
    · have hb := batchOf_pos (show 0 < full - done by omega)
      have hb' := batchOf_le (full - done)
      rw [dif_pos hlt]
      have hframe := ataWrite_outside d (fun k => src (done * 512 + k))
        (ha (lba + done) (batchOf (full - done)) hb le_rfl (by omega)).mod
      cases hw : ataWrite d ((lba + done) % 2 ^ 32) (batchOf (full - done))
          fun k => src (done * 512 + k) with
      | mk ok d' =>
        rw [hw] at hframe
        cases ok with
        | false => exact hframe
        | true =>
          exact (ih (full - (done + batchOf (full - done))) (by omega) d'
            (fun s c hc hlo => ha s c hc (by omega)) rfl).trans hframe
    · rw [dif_neg hlt]

/-- It stores them all if it succeeds. -/
theorem writeSectors_stores (src : Bytes) (hlba : lba + full ≤ 2 ^ 28) {done k : Nat} (d : Disk)
    (hok : (writeSectors src lba full done d).1) (hlo : 512 * done ≤ k) (hhi : k < 512 * full) :
    (writeSectors src lba full done d).2.data (512 * lba + k) = src k := by
  induction hn : full - done using Nat.strongRecOn generalizing done d with
  | ind n ih =>
    have hb := batchOf_pos (show 0 < full - done by omega)
    have hb' := batchOf_le (full - done)
    rw [writeSectors, dif_pos (by omega),
      Nat.mod_eq_of_lt (show lba + done < 2 ^ 32 by omega)] at hok ⊢
    generalize batchOf (full - done) = batch at *
    have hstore := fun h => @ataWrite_stores d (lba + done) batch (by omega)
      (fun k => src (done * 512 + k)) h (k - 512 * done)
    cases hw : ataWrite d (lba + done) batch fun k => src (done * 512 + k) with
    | mk ok d' =>
      rw [hw] at hok hstore
      cases ok with
      | false => cases hok
      | true =>
        by_cases hk : 512 * (done + batch) ≤ k
        · exact ih (full - (done + batch)) (by omega) d' hok hk rfl
        · dsimp only
          rw [writeSectors_outside src d' fun s c hc hs hsc => unaddressed_of_lt (by omega)
            (by omega),
            show 512 * lba + k = 512 * (lba + done) + (k - 512 * done) by omega,
            hstore rfl (by omega), show done * 512 + (k - 512 * done) = k by omega]

/-- The data transfers of `alfs_write` change only sectors they address. -/
theorem writeData_outside (src : Bytes) (d : Disk)
    (ha : ∀ s c, 0 < c → lba ≤ s → s + c ≤ lba + writtenSectors size → Unaddressed a s c) :
    (writeData src lba size d).2.data a = d.data a := by
  unfold writtenSectors sectorsOf at ha
  have hfull := @writeSectors_outside lba (size / 512) a src 0 d fun s c hc hlo hhi =>
    ha s c hc hlo (by split <;> omega)
  unfold writeData
  simp only
  cases hw : writeSectors src lba (size / 512) 0 d with
  | mk ok d' =>
    rw [hw] at hfull
    cases ok with
    | false => exact hfull
    | true =>
      dsimp only
      by_cases ht : size % 512 ≠ 0 ∨ size = 0
      · rw [if_pos ht]
        exact (ataWrite_outside d' _ (ha (lba + size / 512) 1 (by decide) (by omega)
          (by split <;> omega)).mod).trans hfull
      · rw [if_neg ht]
        exact hfull

/-- **Writing an extent**: the data transfers of `alfs_write` change only the
extent's own sectors, and leave the buffer there if they succeed. -/
theorem writeData_spec (src : Bytes) (d : Disk) (hlba : lba + writtenSectors size ≤ 2 ^ 28) :
    (∀ a, a < 512 * lba ∨ 512 * (lba + writtenSectors size) ≤ a →
      (writeData src lba size d).2.data a = d.data a) ∧
    ((writeData src lba size d).1 → ∀ k < size,
      (writeData src lba size d).2.data (512 * lba + k) = src k) := by
  refine ⟨fun a ha => writeData_outside src d fun s c hc hlo hhi =>
    unaddressed_of_lt (by omega) (by omega), fun hok k hk => ?_⟩
  unfold writtenSectors sectorsOf at hlba
  have hstore := @writeSectors_stores lba (size / 512) src (by split at hlba <;> omega) 0 k d
  unfold writeData at hok ⊢
  simp only at hok ⊢
  cases hw : writeSectors src lba (size / 512) 0 d with
  | mk ok d' =>
    rw [hw] at hok hstore
    cases ok with
    | false => cases hok
    | true =>
      dsimp only at hok ⊢
      by_cases ht : size % 512 ≠ 0 ∨ size = 0
      · have hsec : lba + size / 512 < 2 ^ 28 := by split at hlba <;> omega
        rw [if_pos ht, Nat.mod_eq_of_lt (show lba + size / 512 < 2 ^ 32 by omega)] at hok ⊢
        by_cases hk' : k < 512 * (size / 512)
        · rw [ataWrite_outside _ _ (unaddressed_of_lt hsec (by omega))]
          exact hstore rfl (by omega) hk'
        · have h := ataWrite_stores hsec hok (k := k - 512 * (size / 512)) (by omega)
          rw [show 512 * lba + k = 512 * (lba + size / 512) + (k - 512 * (size / 512)) by omega,
            h, if_pos (by omega)]
          congr 1
          omega
      · rw [if_neg ht]
        exact hstore rfl (by omega) (by omega)

/-- `dir_flush_slot` changes only the directory sector of its entry, and makes
it a copy of memory if it succeeds.  The rest of the state is untouched. -/
theorem dirFlushSlot_spec (fs : Fs) (hi : i < alfsMaxFiles) :
    (∀ a, a < 512 * (1 + i / 8) ∨ 512 * (2 + i / 8) ≤ a →
      (dirFlushSlot fs i).2.disk.data a = fs.disk.data a) ∧
    ((dirFlushSlot fs i).1 → ∀ k < 512,
      (dirFlushSlot fs i).2.disk.data (512 * (1 + i / 8) + k) = fs.dir (512 * (i / 8) + k)) ∧
    (dirFlushSlot fs i).2.dir = fs.dir ∧ (dirFlushSlot fs i).2.ready = fs.ready ∧
    (dirFlushSlot fs i).2.super = fs.super := by
  unfold alfsMaxFiles at hi
  have hlba : alfsDirStart + i / 8 < 2 ^ 28 := by unfold alfsDirStart; omega
  refine ⟨fun a ha => ?_, fun hok k hk => ?_, rfl, rfl, rfl⟩
  · exact ataWrite_outside fs.disk _ (unaddressed_of_lt hlba (by unfold alfsDirStart; omega))
  · have h := ataWrite_stores hlba hok (show k < 512 * 1 by omega)
    rw [show i / 8 * 512 + k = 512 * (i / 8) + k by omega] at h
    exact h

theorem flush_keeps {fs fs' : Fs} {ok : Bool} (h : dirFlushSlot fs i = (ok, fs')) :
    fs'.dir = fs.dir ∧ fs'.ready = fs.ready := by
  rw [← show (dirFlushSlot fs i).2 = fs' by rw [h]]
  exact ⟨rfl, rfl⟩

end AliOS
