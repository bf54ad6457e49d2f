import AliOS.Alfs.Slots
import AliOS.Elf.Twin

/-!
# AliOS.Elf.History

Does a load depend on the loads before it?  The loader parses out of static buffers, and a
file that is too short leaves them filled with the headers of an earlier file.  A file whose
own bytes decide the checks, and whose program headers lie in the file, is loaded alike
whatever was loaded before; the first results are about this.  The last ones are about files
that leave the loader with what it finds in its buffers.
-/

namespace AliOS

open Lib

variable {k pd : Nat} {m : Machine} {b b' : ElfBufs} {idx : Int}

/-! ## the header, byte by byte -/

/-- The checks on the file header, as checks of its bytes. -/
def hdrByteOk (k : Nat) (b : UInt8) : Bool :=
  match k with
  | 0 => b.toNat == 0x7F
  | 1 => b.toNat == 0x45
  | 2 => b.toNat == 0x4C
  | 3 => b.toNat == 0x46
  | 4 => b.toNat == 1
  | 16 => b.toNat == 2
  | 17 => b.toNat == 0
  | 18 => b.toNat == 3
  | 19 => b.toNat == 0
  | 42 => b.toNat == 32
  | 43 => b.toNat == 0
  | 44 => 0 < b.toNat && b.toNat ≤ 8
  | 45 => b.toNat == 0
  | _ => true

/-- Bytes of the file header that the loader looks at. -/
def hdrLooked : Nat := 46

theorem validHeader_iff (eh : Bytes) : validHeader eh ↔ ∀ k < hdrLooked, hdrByteOk k (eh k) := by
  have hval : validHeader eh = true ↔ (eh 0).toNat = 0x7F ∧ (eh 1).toNat = 0x45 ∧
      (eh 2).toNat = 0x4C ∧
      (eh 3).toNat = 0x46 ∧ (eh 4).toNat = 1 ∧ (eh 16).toNat + 256 * (eh 17).toNat = 2 ∧
      (eh 18).toNat + 256 * (eh 19).toNat = 3 ∧ (eh 42).toNat + 256 * (eh 43).toNat = 32 ∧
      0 < (eh 44).toNat + 256 * (eh 45).toNat ∧ (eh 44).toNat + 256 * (eh 45).toNat ≤ 8 := by
    simp only [validHeader, eType, eMachine, ePhentsize, ePhnum, load16, elfClass32, etExec, em386,
      phdrSize, maxPhdr,
      Bool.and_eq_true, beq_iff_eq, Bool.not_eq_true', Bool.or_eq_false_iff, beq_eq_false_iff_ne,
      ← UInt8.toNat_inj]
    simp
    omega
  rw [hval]
  constructor
  · rintro ⟨h0, h1, h2, h3, h4, h16, h18, h42, hlo, hhi⟩ k -
    unfold hdrByteOk
    split <;> simp only [beq_iff_eq, Bool.and_eq_true, decide_eq_true_eq] <;> omega
  · intro h
    have h16 := h 16 (by decide)
    have h17 := h 17 (by decide)
    have h18 := h 18 (by decide)
    have h19 := h 19 (by decide)
    have h42 := h 42 (by decide)
    have h43 := h 43 (by decide)
    have h44 := h 44 (by decide)
    have h45 := h 45 (by decide)
    simp only [hdrByteOk, beq_iff_eq, Bool.and_eq_true, decide_eq_true_eq]
      at h16 h17 h18 h19 h42 h43 h44 h45
    refine ⟨?_, ?_, ?_, ?_, ?_, by omega, by omega, by omega, by omega, by omega⟩
    · simpa [hdrByteOk] using h 0 (by decide)
    · simpa [hdrByteOk] using h 1 (by decide)
    · simpa [hdrByteOk] using h 2 (by decide)
    · simpa [hdrByteOk] using h 3 (by decide)
    · simpa [hdrByteOk] using h 4 (by decide)

theorem validHeader_congr {eh eh' : Bytes} (h : ∀ k < hdrLooked, eh' k = eh k) :
    validHeader eh' = validHeader eh := by
  rw [Bool.eq_iff_iff, validHeader_iff, validHeader_iff]
  refine forall₂_congr fun k hk => ?_
  rw [h k hk]

theorem load16_congr {m m' : Bytes} {a : Nat} (h : ∀ k < 2, m' (a + k) = m (a + k)) :
    load16 m' a = load16 m a := by
  have h0 := h 0 (by decide)
  have h1 := h 1 (by decide)
  rw [Nat.add_zero] at h0
  unfold load16
  rw [h0, h1]

/-- The fields after the header depend on the bytes the loader looks at. -/
theorem header_congr {eh eh' : Bytes} (h : ∀ k < hdrLooked, eh' k = eh k) :
    eEntry eh' = eEntry eh ∧ ePhoff eh' = ePhoff eh ∧ ePhnum eh' = ePhnum eh := by
  unfold hdrLooked at h
  exact ⟨load32_congr fun k hk => h _ (by omega), load32_congr fun k hk => h _ (by omega),
    load16_congr fun k hk => h _ (by omega)⟩

theorem phdr_congr {b b' : Bytes} {i : Nat}
    (h : ∀ k < phdrSize, b' (phdrSize * i + k) = b (phdrSize * i + k)) :
    phdr b' i = phdr b i := by
  have hword : ∀ o, o + 4 ≤ phdrSize → load32 b' (phdrSize * i + o) = load32 b (phdrSize * i + o) :=
    fun o ho =>
    load32_congr fun k hk => by
      rw [Nat.add_assoc]
      exact h (o + k) (by omega)
  have h0 := hword 0 (by decide)
  rw [Nat.add_zero] at h0
  unfold phdr
  rw [h0, hword 4 (by decide), hword 8 (by decide), hword 16 (by decide), hword 20 (by decide),
    hword 24 (by decide)]

theorem fillBuf_of_lt {buf : Bytes} {bytes : List UInt8} (h : k < bytes.length) :
    fillBuf buf bytes k = bytes.getD k 0 := by
  unfold fillBuf
  rw [blit_of_mem (by omega), Nat.sub_zero]

theorem fillBuf_of_le {buf : Bytes} {bytes : List UInt8} (h : bytes.length ≤ k) :
    fillBuf buf bytes k = buf k := blit_of_notMem (by omega)

/-! ## files that bring their own headers -/

/-- What `elf_load` reads of a file first. -/
def headerRead (fs : Fs) (filename : CStr) : (Int × List UInt8) × Fs :=
  alfsPread fs (alfsFind fs (some filename)) hdrBufSize 0

/-- The header in the file's own bytes. -/
def ownHeader (fs : Fs) (filename : CStr) : Bytes :=
  fillBuf (fun _ => 0) (headerRead fs filename).1.2

/-- What it reads then, if the header is the file's own. -/
def tableRead (fs : Fs) (filename : CStr) : (Int × List UInt8) × Fs :=
  alfsPread (headerRead fs filename).2 (alfsFind fs (some filename))
    (ePhnum (ownHeader fs filename) * phdrSize) (ePhoff (ownHeader fs filename))

/-- A header byte of the file fails its check. -/
def HeaderRefuted (fs : Fs) (filename : CStr) : Prop :=
  ∃ k < (headerRead fs filename).1.2.length,
    hdrByteOk k ((headerRead fs filename).1.2.getD k 0) = false

/-- The file decides by itself what becomes of it: it is not found, cannot be read, fails a
check, or has all of its headers. -/
def SelfContained (fs : Fs) (filename : CStr) : Prop :=
  alfsFind fs (some filename) < 0 ∨ (headerRead fs filename).1.1 < 0 ∨ HeaderRefuted fs filename ∨
    hdrLooked ≤ (headerRead fs filename).1.2.length ∧ ((tableRead fs filename).1.1 < 0 ∨
      (tableRead fs filename).1.2.length = ePhnum (ownHeader fs filename) * phdrSize)

/-- The file's own bytes contain a valid header and all program headers. -/
def OwnHeaders (fs : Fs) (filename : CStr) : Prop :=
  hdrLooked ≤ (headerRead fs filename).1.2.length ∧ validHeader (ownHeader fs filename) = true ∧
    (tableRead fs filename).1.2.length = ePhnum (ownHeader fs filename) * phdrSize

section

variable {fs : Fs} {filename : CStr}

theorem HeaderRefuted.validHeader (h : HeaderRefuted fs filename) (b : ElfBufs) :
    validHeader (fillBuf b.hdrBuf (headerRead fs filename).1.2) = false := by
  obtain ⟨k, hk, hno⟩ := h
  rw [← Bool.not_eq_true, validHeader_iff]
  intro hall
  have hlt : k < hdrLooked := by
    by_contra hle
    unfold hdrLooked at hle
    unfold hdrByteOk at hno
    split at hno <;> first | omega | cases hno
  have hok := hall k hlt
  rw [fillBuf_of_lt hk, hno] at hok
  cases hok

/-- The way through the headers. -/
theorem elfHeaders_eq (fs : Fs) (b : ElfBufs) (filename : CStr) : elfHeaders fs b filename =
    if alfsFind fs (some filename) < 0 then (none, fs, b)
    else
      let eh := fillBuf b.hdrBuf (headerRead fs filename).1.2
      if (headerRead fs filename).1.1 < 0 ∨ validHeader eh = false then
        (none, (headerRead fs filename).2, { b with hdrBuf := eh })
      else
        let res := alfsPread (headerRead fs filename).2 (alfsFind fs (some filename))
          (ePhnum eh * phdrSize) (ePhoff eh)
        (if res.1.1 < 0 then none else some (alfsFind fs (some filename)), res.2,
          ⟨eh, fillBuf b.phBuf res.1.2⟩) := by
  unfold elfHeaders
  dsimp only
  by_cases hfind : alfsFind fs (some filename) < 0
  · rw [if_pos hfind, if_pos hfind]
  rw [if_neg hfind, if_neg hfind, show alfsPread fs (alfsFind fs (some filename)) hdrBufSize 0 =
    headerRead fs filename from rfl]
  generalize headerRead fs filename = r
  by_cases hread : r.1.1 < 0
  · rw [if_pos hread, if_pos (.inl hread)]
  rw [if_neg hread]
  cases hvalid : validHeader (fillBuf b.hdrBuf r.1.2) with
  | false => rw [if_pos (show (!false) = true from rfl), if_pos (.inr rfl)]
  | true =>
    have hno : ¬(r.1.1 < 0 ∨ true = false) := by simp [hread]
    rw [if_neg (show ¬(!true) = true by decide), if_neg hno]
    split <;> rfl

/-- A whole header in the file: the buffers end up with it, whatever they held. -/
theorem hdrBuf_own (hlen : hdrLooked ≤ (headerRead fs filename).1.2.length) (b : ElfBufs) :
    ∀ k < hdrLooked, fillBuf b.hdrBuf (headerRead fs filename).1.2 k = ownHeader fs filename k :=
  fun _ hk => by
  unfold ownHeader
  rw [fillBuf_of_lt (by omega), fillBuf_of_lt (by omega)]

/-- The way through the headers of a file with a whole header. -/
theorem elfHeaders_own (hfind : ¬alfsFind fs (some filename) < 0)
    (hread : ¬(headerRead fs filename).1.1 < 0)
    (hlen : hdrLooked ≤ (headerRead fs filename).1.2.length)
    (hvalid : validHeader (ownHeader fs filename)) (b : ElfBufs) : elfHeaders fs b filename =
      (if (tableRead fs filename).1.1 < 0 then none else some (alfsFind fs (some filename)),
        (tableRead fs filename).2,
        ⟨fillBuf b.hdrBuf (headerRead fs filename).1.2,
          fillBuf b.phBuf (tableRead fs filename).1.2⟩) := by
  have hok : ¬((headerRead fs filename).1.1 < 0 ∨
      validHeader (fillBuf b.hdrBuf (headerRead fs filename).1.2) = false) := by
    rw [validHeader_congr (hdrBuf_own hlen b), hvalid]
    simp [hread]
  obtain ⟨-, hoff, hnum⟩ := header_congr (hdrBuf_own hlen b)
  rw [elfHeaders_eq, if_neg hfind]
  rw [if_neg hok, hoff, hnum]
  rfl

/-- **A file that brings its own headers**: they are read alike from any buffers. -/
theorem elfHeaders_selfContained (h : SelfContained fs filename) (b1 b2 : ElfBufs) :
    (∃ fs' b1' b2', elfHeaders fs b1 filename = (none, fs', b1') ∧
      elfHeaders fs b2 filename = (none, fs', b2')) ∨
    OwnHeaders fs filename ∧ ∃ idx fs' b1' b2', elfHeaders fs b1 filename = (some idx, fs', b1') ∧
      elfHeaders fs b2 filename = (some idx, fs', b2') ∧ eEntry b2'.hdrBuf = eEntry b1'.hdrBuf ∧
      ePhnum b2'.hdrBuf = ePhnum b1'.hdrBuf ∧ ∀ i < ePhnum b1'.hdrBuf,
      phdr b2'.phBuf i = phdr b1'.phBuf i := by
  by_cases hfind : alfsFind fs (some filename) < 0
  · rw [elfHeaders_eq, elfHeaders_eq, if_pos hfind, if_pos hfind]
    exact .inl ⟨_, _, _, rfl, rfl⟩
  -- a header that does not pass with either of the buffers
  have hstop : ((headerRead fs filename).1.1 < 0 ∨
      ∀ b : ElfBufs, validHeader (fillBuf b.hdrBuf (headerRead fs filename).1.2) = false) →
      ∃ fs' b1' b2', elfHeaders fs b1 filename = (none, fs', b1') ∧
        elfHeaders fs b2 filename = (none, fs', b2') := fun hno => by
    rw [elfHeaders_eq, elfHeaders_eq, if_neg hfind, if_neg hfind]
    rw [if_pos (hno.imp_right (· b1)), if_pos (hno.imp_right (· b2))]
    exact ⟨_, _, _, rfl, rfl⟩
  by_cases hread : (headerRead fs filename).1.1 < 0
  · exact .inl (hstop (.inl hread))
  obtain hno | hno | hrefuted | ⟨hlen, htab⟩ := h
  · exact absurd hno hfind
  · exact absurd hno hread
  · exact .inl (hstop (.inr hrefuted.validHeader))
  cases hv : validHeader (ownHeader fs filename) with
  | false => exact .inl (hstop (.inr fun b => (validHeader_congr (hdrBuf_own hlen b)).trans hv))
  | true =>
    rw [elfHeaders_own hfind hread hlen hv, elfHeaders_own hfind hread hlen hv]
    by_cases hfail : (tableRead fs filename).1.1 < 0
    · rw [if_pos hfail]
      exact .inl ⟨_, _, _, rfl, rfl⟩
    · rw [if_neg hfail]
      have hall := htab.resolve_left hfail
      obtain ⟨hentry1, -, hnum1⟩ := header_congr (hdrBuf_own hlen b1)
      obtain ⟨hentry2, -, hnum2⟩ := header_congr (hdrBuf_own hlen b2)
      refine .inr ⟨⟨hlen, hv, hall⟩, _, _, _, _, rfl, rfl, hentry2.trans hentry1.symm,
        hnum2.trans hnum1.symm, fun i hi => phdr_congr fun k hk => ?_⟩
      have hlt : phdrSize * i + k < (tableRead fs filename).1.2.length := by
        rw [hnum1] at hi
        unfold phdrSize at *
        omega
      exact (fillBuf_of_lt hlt).trans (fillBuf_of_lt hlt).symm

/-! ## the loads before -/

/-- The buffers after any series of loads. -/
inductive Buffered : ElfBufs → Prop
  | boot : Buffered .bss
  | load {s s' : Loader} {pd : Nat} {filename : CStr} {r : ElfResult} :
      Buffered s.bufs → elfLoad s pd filename = some (r, s') → Buffered s'.bufs

/-- Two loads into directory `d` end alike: both kill the kernel, or both return the same,
and the pages they have mapped have the same entries and the same contents. -/
def SameLoad (d : Nat) : Option (ElfResult × Loader) → Option (ElfResult × Loader) → Prop :=
  Option.Rel fun x y => y.1 = x.1 ∧ y.2.fs = x.2.fs ∧ ∀ va ∈ x.1.mapped,
    pteAt y.2.machine.mem d (va / 4096) = pteAt x.2.machine.mem d (va / 4096) ∧
      page y.2.machine.mem (pteAt x.2.machine.mem d (va / 4096) / 4096) =
        page x.2.machine.mem (pteAt x.2.machine.mem d (va / 4096) / 4096)

theorem not_sameLoad {d : Nat} {x y : ElfResult × Loader} (h : y.1.entry ≠ x.1.entry) :
    ¬SameLoad d (some x) (some y)
  | .some hsame => h (congrArg _ hsame.1)

theorem elfLoad_none {fs' : Fs} (h : elfHeaders fs b filename = (none, fs', b')) :
    elfLoad ⟨m, fs, b⟩ pd filename = some (⟨none, []⟩, ⟨m, fs', b'⟩) := by
  unfold elfLoad
  rw [h]

theorem elfLoad_some {fs' : Fs} (h : elfHeaders fs b filename = (some idx, fs', b')) :
    elfLoad ⟨m, fs, b⟩ pd filename =
      (forRangeM (elfSegment pd idx b'.phBuf) 0 (ePhnum b'.hdrBuf) ⟨false, m, fs', []⟩).map
        fun st =>
        (⟨if st.failed then none else some (eEntry b'.hdrBuf), st.mapped⟩,
          ⟨st.machine, st.fs, b'⟩) := by
  unfold elfLoad
  rw [h]

/-- The sufficient half: such a file is loaded alike, and only if it is a program. -/
theorem SelfContained.sameLoad {kt₁ kt₂ : Nat → Nat} {c₁ c₂ d : Nat} {F : Set Nat} {m₁ m₂ : Machine}
    (h : SelfContained fs filename) (htwins : Twins kt₁ kt₂ c₁ c₂ d F m₁ m₂) (b1 b2 : ElfBufs) :
    SameLoad d (elfLoad ⟨m₁, fs, b1⟩ (d * 4096) filename)
      (elfLoad ⟨m₂, fs, b2⟩ (d * 4096) filename) := by
  obtain ⟨fs', b1', b2', h1, h2⟩ | ⟨-, idx, fs', b1', b2', h1, h2, hentry, hnum, hph⟩ :=
    elfHeaders_selfContained h b1 b2
  · rw [elfLoad_none h1, elfLoad_none h2]
    exact .some ⟨rfl, rfl, by simp⟩
  · rw [elfLoad_some h1, elfLoad_some h2, hnum, hentry]
    have hstart : TwinImages kt₁ kt₂ c₁ c₂ d ⟨false, m₁, fs', []⟩ ⟨false, m₂, fs', []⟩ :=
      ⟨rfl, rfl, rfl, by simp, fun _ => ⟨F, htwins, by simp⟩⟩
    refine rel_map (forRangeM_rel _ hstart fun i _ _ _ hi hst => hst.elfSegment (hph i (by omega)))
      fun st₁ st₂ hst => ⟨?_, hst.fs, hst.same⟩
    rw [hst.failed, hst.mapped]

/-! ## files that do not -/

/-- A file without the program headers, or without most of the header: it fails no check,
and its program headers lie beyond its end or are not even named. -/
def LeavesHeaders (fs : Fs) (filename : CStr) : Prop :=
  ¬alfsFind fs (some filename) < 0 ∧ ¬(headerRead fs filename).1.1 < 0 ∧
    ¬HeaderRefuted fs filename ∧
    ((headerRead fs filename).1.2.length ≤ 28 ∨ hdrLooked ≤ (headerRead fs filename).1.2.length ∧
      ¬(tableRead fs filename).1.1 < 0 ∧ (tableRead fs filename).1.2 = [])

/-- Nothing to load. -/
theorem elfSegments_skip {phBuf : Bytes} {n : Nat} {st : Image} (hf : st.failed = false)
    (h : ∀ i < n, (phdr phBuf i).type ≠ ptLoad) :
    forRangeM (elfSegment pd idx phBuf) 0 n st = some st :=
  forRangeM_fixed fun i _ hi => by
    unfold elfSegment
    rw [if_neg (by simp [hf]), if_pos (h i (by omega))]

/-- The first segment is refused. -/
theorem elfSegments_refused {phBuf : Bytes} {n : Nat} {st : Image} (hf : st.failed = false)
    (hn : 0 < n) (hl : (phdr phBuf 0).Loads) (hstart : ¬UserAddr (phdr phBuf 0).vaddr) :
    forRangeM (elfSegment pd idx phBuf) 0 n st = some { st with failed := true } := by
  obtain ⟨n, rfl⟩ := Nat.exists_eq_succ_of_ne_zero (Nat.pos_iff_ne_zero.mp hn)
  have hfirst : elfSegment pd idx phBuf 0 st = some { st with failed := true } := by
    unfold elfSegment
    rw [if_neg (by simp [hf]), if_neg (not_not.mpr hl.1), if_neg hl.2, if_pos hstart]
  rw [forRangeM_succ, hfirst]
  refine forRangeM_fixed fun i _ _ => ?_
  unfold elfSegment
  exact if_pos rfl

theorem elfLoad_skip {fs' : Fs} (h : elfHeaders fs b filename = (some idx, fs', b'))
    (hskip : ∀ i < ePhnum b'.hdrBuf, (phdr b'.phBuf i).type ≠ ptLoad) :
    elfLoad ⟨m, fs, b⟩ pd filename = some (⟨some (eEntry b'.hdrBuf), []⟩, ⟨m, fs', b'⟩) := by
  rw [elfLoad_some h, elfSegments_skip rfl hskip]
  rfl

theorem elfLoad_refused {fs' : Fs} (h : elfHeaders fs b filename = (some idx, fs', b'))
    (hn : 0 < ePhnum b'.hdrBuf) (hl : (phdr b'.phBuf 0).Loads)
    (hstart : ¬UserAddr (phdr b'.phBuf 0).vaddr) :
    elfLoad ⟨m, fs, b⟩ pd filename = some (⟨none, []⟩, ⟨m, fs', b'⟩) := by
  rw [elfLoad_some h, elfSegments_refused rfl hn hl hstart]
  rfl

/-- After a read that succeeded, a read from the largest offset delivers nothing. -/
theorem alfsPread_past {len off : Nat} (h : 0 ≤ (alfsPread fs idx len off).1.1) (len' : Nat) :
    (alfsPread (alfsPread fs idx len off).2 idx len' 0xFFFFFFFF).1 = (0, []) := by
  obtain ⟨hready, hdir⟩ := alfsPread_frame fs idx len off
  have hhas : fs.Has idx := by
    by_contra hno
    rw [alfsPread_eq, if_neg hno] at h
    simp at h
  generalize (alfsPread fs idx len off).2 = fs' at *
  have hsize : entrySize fs'.dir idx.toNat < 2 ^ 32 := load32_lt _ _
  rw [alfsPread_eq, if_pos (show fs'.Has idx by rwa [Fs.Has, hready, hdir]),
    show entrySize fs'.dir idx.toNat - 0xFFFFFFFF = 0 by omega, Nat.min_zero]
  simp [preadLoop, asInt]

/-! Two loads to come after: of a file that names no program headers, and of one with a
segment that is refused. -/

/-- A program whose program headers lie beyond the end of any file. -/
def stubFile : Bytes := store32 (elfFile 0) 28 0xFFFFFFFF

/-- A program with a segment at address 0. -/
def wildFile : Bytes := store32 (elfFile 1) 60 0

def stubBufs : ElfBufs := (elfHeaders (elfFs stubFile 46) .bss elfName).2.2

def wildBufs : ElfBufs := (elfHeaders (elfFs wildFile 84) .bss elfName).2.2

theorem stubBufs_spec : (elfHeaders (elfFs stubFile 46) .bss elfName).1 = some 0 ∧
    (∀ k < hdrLooked, hdrByteOk k (stubBufs.hdrBuf k)) ∧ ePhoff stubBufs.hdrBuf = 0xFFFFFFFF ∧
    ePhnum stubBufs.hdrBuf = 1 ∧ (phdr stubBufs.phBuf 0).type = 0 := by
  decide +kernel

theorem wildBufs_spec : (elfHeaders (elfFs wildFile 84) .bss elfName).1 = some 0 ∧
    ePhnum wildBufs.hdrBuf = 1 ∧ phdr wildBufs.phBuf 0 = ⟨1, 0, 0, 0, 1, 0⟩ := by
  decide +kernel

theorem buffered_stubBufs : Buffered stubBufs := by
  obtain ⟨hidx, -, -, hnum, htype⟩ := stubBufs_spec
  have hhdr : elfHeaders (elfFs stubFile 46) .bss elfName = (some 0, _, stubBufs) :=
    Prod.ext hidx rfl
  refine .load .boot (@elfLoad_skip 0 loaderMachine _ _ _ _ _ _ hhdr fun i hi => ?_)
  obtain rfl : i = 0 := by omega
  rw [htype]
  decide

theorem buffered_wildBufs : Buffered wildBufs := by
  obtain ⟨hidx, hnum, hph⟩ := wildBufs_spec
  have hhdr : elfHeaders (elfFs wildFile 84) .bss elfName = (some 0, _, wildBufs) :=
    Prod.ext hidx rfl
  exact .load .boot (@elfLoad_refused 0 loaderMachine _ _ _ _ _ _ hhdr (by omega)
    (by rw [hph]; exact ⟨rfl, by decide⟩)
    (by rw [hph]; decide))

/-- What a file that fails no check leaves to the buffers decides. -/
theorem validHeader_fill (hok : ¬HeaderRefuted fs filename)
    (hrest : ∀ k < hdrLooked, (headerRead fs filename).1.2.length ≤ k → hdrByteOk k (b.hdrBuf k)) :
    validHeader (fillBuf b.hdrBuf (headerRead fs filename).1.2) := by
  rw [validHeader_iff]
  intro k hk
  by_cases hin : k < (headerRead fs filename).1.2.length
  · rw [fillBuf_of_lt hin]
    by_contra hbad
    exact hok ⟨k, hin, Bool.not_eq_true _ ▸ hbad⟩
  · rw [fillBuf_of_le (by omega)]
    exact hrest k hk (by omega)

/-- A short file that passes: it becomes the program that was there before it. -/
theorem elfLoad_short (hfind : ¬alfsFind fs (some filename) < 0)
    (hread : ¬(headerRead fs filename).1.1 < 0)
    (hok : ¬HeaderRefuted fs filename) (hlen : (headerRead fs filename).1.2.length ≤ 28) :
    (∃ s', elfLoad ⟨m, fs, .bss⟩ pd filename = some (⟨none, []⟩, s')) ∧
      ∃ entry s', elfLoad ⟨m, fs, stubBufs⟩ pd filename = some (⟨some entry, []⟩, s') := by
  obtain ⟨-, hstub, hoff, hnum, htype⟩ := stubBufs_spec
  constructor
  · -- the header ends with zeros
    have hno : validHeader (fillBuf ElfBufs.bss.hdrBuf (headerRead fs filename).1.2) = false := by
      rw [← Bool.not_eq_true, validHeader_iff]
      intro hall
      have h42 := hall 42 (by decide)
      rw [fillBuf_of_le (by omega)] at h42
      exact absurd h42 (by decide)
    have hhdr := elfHeaders_eq fs .bss filename
    rw [if_neg hfind] at hhdr
    rw [if_pos (.inr hno)] at hhdr
    exact ⟨_, elfLoad_none hhdr⟩
  · -- or with the rest of another header
    have hrest : ∀ k, 28 ≤ k →
        fillBuf stubBufs.hdrBuf (headerRead fs filename).1.2 k = stubBufs.hdrBuf k := fun k hk =>
      fillBuf_of_le (by omega)
    have hvalid : validHeader (fillBuf stubBufs.hdrBuf (headerRead fs filename).1.2) :=
      validHeader_fill hok fun k hk _ => hstub k hk
    have hoff' : ePhoff (fillBuf stubBufs.hdrBuf (headerRead fs filename).1.2) = 0xFFFFFFFF :=
      (load32_congr fun k _ => hrest _ (by omega)).trans hoff
    have hnum' : ePhnum (fillBuf stubBufs.hdrBuf (headerRead fs filename).1.2) = 1 :=
      (load16_congr fun k _ => hrest _ (by omega)).trans hnum
    have hpast : (alfsPread (headerRead fs filename).2 (alfsFind fs (some filename))
        (1 * phdrSize) 0xFFFFFFFF).1 =
      (0, []) := alfsPread_past (Int.not_lt.mp hread) _
    have hhdr := elfHeaders_eq fs stubBufs filename
    rw [if_neg hfind] at hhdr
    dsimp only at hhdr
    rw [if_neg (by simp [hvalid, hread]), hoff', hnum', hpast, if_neg (by decide)] at hhdr
    refine ⟨_, _, elfLoad_skip hhdr fun i hi => ?_⟩
    obtain rfl : i = 0 := by
      rw [hnum'] at hi
      omega
    rw [phdr_congr fun k _ => fillBuf_of_le (Nat.zero_le _), htype]
    decide

/-- A header without program headers: it gets those of the file before it. -/
theorem elfLoad_bare (hfind : ¬alfsFind fs (some filename) < 0)
    (hread : ¬(headerRead fs filename).1.1 < 0)
    (hok : ¬HeaderRefuted fs filename) (hlen : hdrLooked ≤ (headerRead fs filename).1.2.length)
    (htab : ¬(tableRead fs filename).1.1 < 0) (hnone : (tableRead fs filename).1.2 = []) :
    (∃ entry s', elfLoad ⟨m, fs, .bss⟩ pd filename = some (⟨some entry, []⟩, s')) ∧
      ∃ s', elfLoad ⟨m, fs, wildBufs⟩ pd filename = some (⟨none, []⟩, s') := by
  have hvalid : validHeader (ownHeader fs filename) :=
    @validHeader_fill .bss fs filename hok fun k hk hle => by omega
  have hhdr : ∀ b : ElfBufs, elfHeaders fs b filename = (some (alfsFind fs (some filename)),
      (tableRead fs filename).2,
      ⟨fillBuf b.hdrBuf (headerRead fs filename).1.2, fillBuf b.phBuf []⟩) := fun b => by
    rw [elfHeaders_own hfind hread hlen hvalid, if_neg htab, hnone]
  have hph : ∀ (b : ElfBufs) (i : Nat), phdr (fillBuf b.phBuf []) i = phdr b.phBuf i := fun b i =>
    phdr_congr fun k _ => fillBuf_of_le (Nat.zero_le _)
  constructor
  · refine ⟨_, _, elfLoad_skip (hhdr .bss) fun i _ => ?_⟩
    exact (by decide : (0 : Nat) ≠ ptLoad)
  · obtain ⟨-, -, hwild⟩ := wildBufs_spec
    refine ⟨_, elfLoad_refused (hhdr wildBufs) ?_ ?_ ?_⟩
    · have hnum := (header_congr (hdrBuf_own hlen wildBufs)).2.2
      simp only [validHeader, Bool.and_eq_true, Bool.not_eq_true', Bool.or_eq_false_iff,
        beq_eq_false_iff_ne] at hvalid
      dsimp only
      omega
    · rw [hph, hwild]
      exact ⟨rfl, by decide⟩
    · rw [hph, hwild]
      decide

end

/-- **The loader and its history.**  In kernel states that agree on the file system, the
frame allocator and the directory to fill, a file that brings its own headers is loaded
alike, and returns 0 only if it has all of them.  With a file that leaves its headers to
the buffers the result depends on what has been loaded before. -/
theorem elfLoad_history {kt₁ kt₂ : Nat → Nat} {c₁ c₂ d : Nat} {F : Set Nat} {m₁ m₂ : Machine}
    (htwins : Twins kt₁ kt₂ c₁ c₂ d F m₁ m₂) (fs : Fs) (filename : CStr) :
    (SelfContained fs filename → ∀ b₁ b₂ : ElfBufs,
      SameLoad d (elfLoad ⟨m₁, fs, b₁⟩ (d * 4096) filename)
        (elfLoad ⟨m₂, fs, b₂⟩ (d * 4096) filename) ∧
      ∀ entry mapped s', elfLoad ⟨m₁, fs, b₁⟩ (d * 4096) filename =
        some (⟨some entry, mapped⟩, s') →
        OwnHeaders fs filename) ∧
    (LeavesHeaders fs filename → ∃ b₁ b₂ : ElfBufs, Buffered b₁ ∧ Buffered b₂ ∧
      ¬SameLoad d (elfLoad ⟨m₁, fs, b₁⟩ (d * 4096) filename)
        (elfLoad ⟨m₂, fs, b₂⟩ (d * 4096) filename)) := by
  refine ⟨fun h b₁ b₂ => ⟨h.sameLoad htwins b₁ b₂, fun entry mapped s' hload => ?_⟩, ?_⟩
  · obtain ⟨fs', b1', b2', h1, -⟩ | ⟨hown, -⟩ := elfHeaders_selfContained h b₁ b₁
    · rw [elfLoad_none h1] at hload
      simp at hload
    · exact hown
  rintro ⟨hfind, hread, hok, hlen | ⟨hlen, htab, hnone⟩⟩
  · refine ⟨.bss, stubBufs, .boot, buffered_stubBufs, fun hsame => ?_⟩
    obtain ⟨s', hload⟩ := (@elfLoad_short (d * 4096) m₁ fs filename hfind hread hok hlen).1
    obtain ⟨entry, s'', hload'⟩ := (@elfLoad_short (d * 4096) m₂ fs filename hfind hread hok hlen).2
    rw [hload, hload'] at hsame
    exact not_sameLoad (by simp) hsame
  · refine ⟨.bss, wildBufs, .boot, buffered_wildBufs, fun hsame => ?_⟩
    obtain ⟨entry, s', hload⟩ :=
      (@elfLoad_bare (d * 4096) m₁ fs filename hfind hread hok hlen htab hnone).1
    obtain ⟨s'', hload'⟩ :=
      (@elfLoad_bare (d * 4096) m₂ fs filename hfind hread hok hlen htab hnone).2
    rw [hload, hload'] at hsame
    exact not_sameLoad (by simp) hsame

theorem kernelTables_loaderMachine {f : Nat} (hf : f ∈ kernelTables loaderMachine.mem 16) :
    Low f ∧ pageIsFree loaderMachine.pmm f = false ∧ ¬Walked loaderMachine.mem 16 f := by
  have hframe : ∀ i < 1024, hasFlag (word loaderMachine.mem 16 i) pagePresent = true →
      word loaderMachine.mem 16 i / 4096 = if i < 32 then 256 + i else i - 480 := fun i hi hp => by
    rw [show loaderMachine.mem = (pairOn 16).mem from rfl, word_pairOn_dir (.inl rfl) hi,
      if_neg (by omega)] at hp ⊢
    have hin := (present_pairDirEntry hp).1
    unfold pairDirEntry
    split_ifs with hlow
    · exact mul_or_div (by decide)
    · rw [mul_or_div (by decide)]
      omega
    · omega
  obtain ⟨j, hlo, hhi, hp, rfl⟩ := hf
  have hj := hframe j (by omega) hp
  rw [if_neg (by omega)] at hj
  refine ⟨by unfold Low; omega, loaderMachine_used (by omega) hp, ?_⟩
  rintro (h16 | ⟨i, hi, hpi, heq⟩)
  · omega
  · have hi' := hframe i (by omega) hpi
    split_ifs at hi' <;> omega

/-- The program at the last page, loaded first or after another one. -/
theorem elfLoad_history_last_page : ∃ d m, uvmCreate loaderMachine = some (d * 4096, m) ∧
    SameLoad d (elfLoad ⟨m, elfFs (elfFile 0x1000) 84, .bss⟩ (d * 4096) elfName)
      (elfLoad ⟨m, elfFs (elfFile 0x1000) 84, wildBufs⟩ (d * 4096) elfName) := by
  obtain ⟨d, mem, -, hd0, -, hcreate⟩ := loaderMachine_creates
  have hready := kernelMaps_loaderMachine.loadReady (fun f => kernelTables_loaderMachine)
    hd0 hcreate
  have hself : SelfContained (elfFs (elfFile 0x1000) 84) elfName := by
    refine .inr (.inr (.inr ?_))
    decide +kernel
  exact ⟨d, _, hcreate, ((elfLoad_history ⟨hready, hready, rfl, fun _ _ => rfl⟩ _ _).1 hself _ _).1⟩

/-- An empty file: no program after boot, and a program after another one. -/
theorem elfLoad_empty_depends : ∃ d m, uvmCreate loaderMachine = some (d * 4096, m) ∧
    Buffered .bss ∧
    Buffered stubBufs ∧ ∃ s₁ s₂ entry, elfLoad ⟨m, elfFs (fun _ => 0) 0, .bss⟩ (d * 4096) elfName =
      some (⟨none, []⟩, s₁) ∧
      elfLoad ⟨m, elfFs (fun _ => 0) 0, stubBufs⟩ (d * 4096) elfName = some (⟨some entry, []⟩, s₂) ∧
      ¬OwnHeaders (elfFs (fun _ => 0) 0) elfName := by
  obtain ⟨d, mem, -, -, -, hcreate⟩ := loaderMachine_creates
  refine ⟨d, _, hcreate, .boot, buffered_stubBufs, ?_⟩
  have hhdr : ¬alfsFind (elfFs (fun _ => 0) 0) (some elfName) < 0 ∧
      (headerRead (elfFs (fun _ => 0) 0) elfName).1 = (0, []) := by
    decide +kernel
  have hlen : (headerRead (elfFs (fun _ => 0) 0) elfName).1.2.length = 0 := by rw [hhdr.2]; rfl
  obtain ⟨⟨s₁, h1⟩, entry, s₂, h2⟩ := elfLoad_short hhdr.1 (by rw [hhdr.2]; decide)
    (fun ⟨k, hk, _⟩ => by omega) (by omega)
  refine ⟨s₁, s₂, entry, h1, h2, fun hown => ?_⟩
  have h46 := hown.1
  unfold hdrLooked at h46
  omega

end AliOS
