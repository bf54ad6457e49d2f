import AliOS.Elf.Contents

/-!
# AliOS.Elf.Program

A program whose segments touch different pages is loaded as its file says: the bytes, zeros
behind them, and the rights of each segment.
-/

namespace AliOS

open Lib Option

/-! ## the loaded program -/

/-- The segments touch different pages. -/
def PagesApart (phs : List Phdr) : Prop := phs.Pairwise fun p q => ∀ v, ¬(p.Touches v ∧ q.Touches v)

/-- The program of the file lies in the space of `d`: the bytes of its segments with zeros behind
them, each page with the rights of its segment, and nothing else. -/
structure ProgramLoaded (fs : Fs) (i : Nat) (mem : Bytes) (d entry : Nat) : Prop where
  entry : entry = eEntry (fileData fs i)
  bytes : ∀ ph ∈ programHeaders fs i, ph.type = ptLoad → ∀ k < ph.memsz,
    userRead mem (d * 4096) (ph.vaddr + k) =
      some (if k < ph.filesz then fileData fs i (ph.offset + k) else 0)
  rights : ∀ ph ∈ programHeaders fs i, ∀ v, ph.Touches v → ∃ pde pte,
    walk mem (d * 4096) (v * 4096) = some (pde, pte) ∧ hasFlag pde pageUser = true ∧
      hasFlag pte pageUser = true ∧
    (hasFlag pde pageWrite && hasFlag pte pageWrite) = hasFlag ph.flags pfW
  only : ∀ v, UserPage v → (∀ ph ∈ programHeaders fs i, ¬ph.Touches v) →
    walk mem (d * 4096) (v * 4096) = none

theorem hasFlag_mod (w : Nat) {flag : Nat} (hflag : flag < 4096) :
    hasFlag (w % 4096) flag = hasFlag w flag := by
  have hw : w / 4096 * 4096 ||| w % 4096 = w := by
    rw [Nat.mul_comm, ← Nat.two_pow_add_eq_or_of_lt (i := 12) (Nat.mod_lt w (by decide))]
    exact Nat.div_add_mod w 4096
  rw [← hasFlag_mul_or (w / 4096) (w % 4096) hflag, hw]

/-- What the processor finds of a page. -/
theorem walk_of_spaceImage {mem : Bytes} {d v : Nat} {img : PageImage}
    (h : spaceImage mem d v = some img) {a : Nat}
    (ha : a / 4096 = v) : ∃ pte, walk mem (d * 4096) a = some (word mem d (v / 1024), pte) ∧
      hasFlag (word mem d (v / 1024)) pagePresent ∧ pte % 4096 = img.flags ∧
      mem (physOf pte a) = img.bytes ⟨a % 4096, by omega⟩ := by
  unfold spaceImage at h
  split at h
  · next hp =>
    cases h
    refine ⟨pteAt mem d v, ?_, present_dir_of_present hp, rfl, rfl⟩
    rw [walk_eq_pteAt, ha, if_pos hp, ← ha, show a / 4096 / 1024 = a / 2 ^ 22 by omega]
  · cases h

section

variable {fs : Fs} {i : Nat} {phs : List Phdr} {ph : Phdr} {v : Nat} {filename : CStr}
  {m : Machine} {d : Nat}
  {b : ElfBufs} {entry : Nat} {mapped : List Nat} {s' : Loader}

/-- With one segment a page, it is the last one. -/
theorem PagesApart.lastOn (h : PagesApart phs) (hph : ph ∈ phs) (hv : ph.Touches v) :
    lastOn phs v = some ph := by
  cases hlast : AliOS.lastOn phs v with
  | none => exact absurd hv (lastOn_eq_none.mp hlast ph hph)
  | some q =>
    obtain ⟨hq, hqv⟩ := lastOn_eq_some hlast
    have hsymm : Std.Symm fun p q : Phdr => ∀ v, ¬(p.Touches v ∧ q.Touches v) :=
      ⟨fun p q hpq v hqp => hpq v hqp.symm⟩
    by_contra hne
    exact h.forall hq hph (fun heq => hne (congrArg some heq)) v ⟨hqv, hv⟩

theorem Phdr.hasFlag_pageImage (ph : Phdr) (fs : Fs) (i v : Nat) :
    hasFlag (ph.pageImage fs i v).flags pageUser ∧
      hasFlag (ph.pageImage fs i v).flags pageWrite = hasFlag ph.flags pfW := by
  unfold Phdr.pageImage Phdr.pteFlags
  dsimp only
  cases hasFlag ph.flags pfW <;> decide

/-- What a process reads in its new space. -/
theorem ElfFile.userRead (h : ElfFile fs i) (hfind : alfsFind fs (some filename) = i)
    (hspace : LoadSpace m d)
    (hload : AliOS.elfLoad ⟨m, fs, b⟩ (d * 4096) filename = some (⟨some entry, mapped⟩, s'))
    {a : Nat} (ha : UserAddr a) : AliOS.userRead s'.machine.mem (d * 4096) a =
      (lastOn (programHeaders fs i) (a / 4096)).map fun ph => ph.byteAt fs i a := by
  obtain ⟨-, himage, hpde⟩ := h.elfLoad hfind hspace hload
  have huser : UserPage (a / 4096) := by
    unfold UserAddr at ha
    unfold UserPage
    omega
  have hshown := himage _ huser
  unfold segmentsImage at hshown
  cases hlast : AliOS.lastOn (programHeaders fs i) (a / 4096) with
  | none =>
    rw [hlast, map_none, spaceImage_eq_none] at hshown
    unfold AliOS.userRead
    rw [walk_eq_pteAt, hshown]
    rfl
  | some ph =>
    rw [hlast, map_some] at hshown
    obtain ⟨pte, hwalk, hp, hflags, hbyte⟩ := walk_of_spaceImage hshown rfl
    have hpte : hasFlag pte pageUser := by
      rw [← hasFlag_mod pte (by decide), hflags]
      exact (ph.hasFlag_pageImage fs i _).1
    unfold AliOS.userRead
    rw [hwalk, bind_some]
    rw [(hpde _ huser hp).2, hpte, if_pos (by decide), hbyte]
    show some (ph.byteAt fs i (a / 4096 * 4096 + a % 4096)) = _
    rw [show a / 4096 * 4096 + a % 4096 = a by omega]
    rfl

theorem Phdr.byteAt_add (ph : Phdr) (fs : Fs) (i k : Nat) :
    ph.byteAt fs i (ph.vaddr + k) = if k < ph.filesz then fileData fs i (ph.offset + k) else 0 := by
  unfold Phdr.byteAt
  by_cases hfile : k < ph.filesz
  · rw [if_pos (by omega), if_pos hfile, Nat.add_sub_cancel_left]
  · rw [if_neg (by omega), if_neg hfile]

/-- The bytes of a segment lie in pages that it touches. -/
theorem Phdr.touches_add (hl : ph.type = ptLoad) {k : Nat} (hk : k < ph.memsz) :
    ph.Touches ((ph.vaddr + k) / 4096) := ⟨⟨hl, by omega⟩, by omega, by omega⟩

/-- **Loading a program** whose segments touch different pages. -/
theorem elfLoad_programLoaded (h : ElfFile fs i) (hapart : PagesApart (programHeaders fs i))
    (hfind : alfsFind fs (some filename) = i) (hspace : LoadSpace m d)
    (hload : elfLoad ⟨m, fs, b⟩ (d * 4096) filename = some (⟨some entry, mapped⟩, s')) :
    ProgramLoaded fs i s'.machine.mem d entry := by
  obtain ⟨hentry, himage, hpde⟩ := h.elfLoad hfind hspace hload
  refine ⟨hentry, fun ph hph htype j hj => ?_, fun ph hph v hv => ?_, fun v hv hno => ?_⟩
  · have hv := Phdr.touches_add htype hj
    have hfits := h.segments ph hph hv.1
    have ha : UserAddr (ph.vaddr + j) := by
      obtain ⟨-, hlo, hhi, -⟩ := hfits
      unfold UserAddr
      omega
    rw [h.userRead hfind hspace hload ha, hapart.lastOn hph hv, map_some, ph.byteAt_add]
  · have huser := (h.segments ph hph hv.1).userPage hv
    have hshown := himage v huser
    rw [segmentsImage, hapart.lastOn hph hv, map_some] at hshown
    obtain ⟨pte, hwalk, hp, hflags, -⟩ :=
      walk_of_spaceImage hshown (show v * 4096 / 4096 = v by omega)
    obtain ⟨huflag, hwflag⟩ := ph.hasFlag_pageImage fs i v
    refine ⟨_, pte, hwalk, (hpde v huser hp).2, ?_, ?_⟩
    · rw [← hasFlag_mod pte (by decide), hflags, huflag]
    · rw [(hpde v huser hp).1, Bool.true_and, ← hasFlag_mod pte (by decide), hflags, hwflag]
  · have hnone := himage v hv
    rw [segmentsImage, lastOn_eq_none.mpr hno, map_none, spaceImage_eq_none] at hnone
    rw [walk_eq_pteAt, show v * 4096 / 4096 = v by omega, hnone]
    rfl

end

/-! ## a program -/

/-- The kernel's maps are a layout without address spaces. -/
theorem KernelMaps.layout {m : Machine} {kt : Nat → Nat} {k : Nat} (h : KernelMaps m kt k k)
    (hlow : Low k) (hzero : pageIsFree m.pmm 0 = false) : ∃ owner, Layout m ∅ kt k owner := by
  let kernel : Nat → Prop := fun f => f = k ∨ ∃ i < identityTables, kt i = f
  have howned : ∀ f, kernel f → Low f ∧ pageIsFree m.pmm f = false := by
    rintro f (rfl | ⟨i, hi, rfl⟩)
    · exact ⟨hlow, h.usedDir.1⟩
    · exact h.usedTables i hi
  refine ⟨fun f => if kernel f then some .kernel else none, ⟨fun f r hf => ?_, hzero, h.pageDir,
    ⟨if_pos (.inl rfl), fun i hi => if_pos (.inr ⟨i, hi, rfl⟩)⟩, h.mapped.tables, h.kernelDir,
    by simp, by simp, by simp, k, h.mapped.cr3, .inl rfl⟩⟩
  by_cases hk : kernel f
  · exact howned f hk
  · simp [hk] at hf

def storePhdr (b : Bytes) (a : Nat) (ph : Phdr) : Bytes :=
  let b := store32 (store32 b a ph.type) (a + 4) ph.offset
  let b := store32 (store32 b (a + 8) ph.vaddr) (a + 16) ph.filesz
  store32 (store32 b (a + 20) ph.memsz) (a + 24) ph.flags

/-- A program with the given headers, and `nop`s from byte 512 on. -/
def programFile (phs : List Phdr) : Bytes :=
  let b : Bytes := fun k => if 512 ≤ k then 0x90 else [0x7F, 0x45, 0x4C, 0x46, 1].getD k 0
  let b := store32 b 16 0x00030002
  let b := store32 b 24 0x08048000
  let b := store32 b 28 52
  let b := store32 b 42 (0x20 + 0x10000 * phs.length)
  phs.zipIdx.foldl (fun b ph => storePhdr b (52 + 32 * ph.2) ph.1) b

def programFs (phs : List Phdr) : Fs := elfFs (programFile phs) 520

/-- The headers in a file system are those of the program. -/
def HoldsProgram (phs : List Phdr) : Prop :=
  alfsFind (programFs phs) (some elfName) = 0 ∧ validHeader (fileData (programFs phs) 0) = true ∧
    entryUsed (programFs phs).dir 0 = true ∧ entryStart (programFs phs).dir 0 = alfsDataStart ∧
    entrySize (programFs phs).dir 0 = 520 ∧ ePhoff (fileData (programFs phs) 0) = 52 ∧
    ePhnum (fileData (programFs phs) 0) = phs.length ∧ programHeaders (programFs phs) 0 = phs

instance (phs : List Phdr) : Decidable (HoldsProgram phs) := inferInstanceAs (Decidable (_ ∧ _))

theorem HoldsProgram.fileHas {phs : List Phdr} (h : HoldsProgram phs) {off len : Nat}
    (hlen : off + len ≤ 520) :
    FileHas (programFs phs) 0 off len := by
  obtain ⟨-, -, -, hstart, hsize, -⟩ := h
  unfold FileHas
  rw [hstart, hsize]
  unfold sectorsOf alfsDataStart
  omega

theorem HoldsProgram.elfFile {phs : List Phdr} (h : HoldsProgram phs) (hmany : phs.length ≤ 8)
    (hfits : ∀ ph ∈ phs, ph.Loads → ph.filesz ≤ ph.memsz ∧ 0x08000000 ≤ ph.vaddr ∧
      ph.vaddr + ph.memsz ≤ 0xC0000000 ∧ ph.offset + ph.filesz ≤ 520) :
        ElfFile (programFs phs) 0 := by
  obtain ⟨-, -, -, -, -, hoff, hnum, hphs⟩ := id h
  refine ⟨h.fileHas (by decide), h.fileHas ?_, fun ph hph hl => ?_⟩
  · unfold phdrSize
    omega
  · rw [hphs] at hph
    obtain ⟨hsize, hlo, hhi, hfile⟩ := hfits ph hph hl
    exact ⟨hsize, hlo, hhi, h.fileHas hfile⟩

theorem HoldsProgram.readsWell {phs : List Phdr} (h : HoldsProgram phs) :
    ReadsWell (programFs phs) 0 := by
  obtain ⟨-, -, hused, hstart, hsize, -⟩ := h
  intro len off hlen
  rw [alfsPread_quiet (programFs phs) rfl rfl (by decide) hused (by rw [hstart, hsize]; decide)]
  refine ⟨?_, rfl⟩
  unfold asInt
  rw [if_pos (by omega)]
  exact Int.natCast_nonneg _

/-- A kernel with five free frames. -/
def roomyMachine : Machine := { loaderMachine with pmm := loaderMachine.pmm.release 404 }

theorem pageIsFree_roomyMachine (p : Nat) :
    pageIsFree roomyMachine.pmm p = decide (p = 400 ∨ p = 401 ∨ p = 402 ∨ p = 403 ∨ p = 404) := by
  simp [roomyMachine, pageIsFree_loaderMachine, Bool.or_assoc]

theorem kernelMaps_roomyMachine : KernelMaps roomyMachine (256 + ·) 16 16 where
  pageDir := rfl
  mapped := ⟨rfl, kernelMaps_loaderMachine.mapped.dir, kernelMaps_loaderMachine.mapped.tables⟩
  kernelDir := kernelMaps_loaderMachine.kernelDir
  usedDir := by simp [pageIsFree_roomyMachine]
  usedTables i hi := by
    unfold identityTables at hi
    refine ⟨by unfold Low; omega, ?_⟩
    rw [pageIsFree_roomyMachine, decide_eq_false_iff_not]
    omega
  usedOther i hi hp := by
    obtain ⟨-, hf⟩ := present_pairOn (c := 16) (.inl rfl) hi hp
    rw [pageIsFree_roomyMachine, decide_eq_false_iff_not]
    change 256 ≤ word roomyMachine.mem 16 i / 4096 ∧ word roomyMachine.mem 16 i / 4096 < 320 ∨
      word roomyMachine.mem 16 i / 4096 = 321 ∧ 16 = 320 at hf
    omega
  high f _ hhigh hfree := by
    rw [pageIsFree_roomyMachine, decide_eq_true_eq] at hfree
    unfold Low at hhigh
    omega

/-- A new address space, with four frames left for a program. -/
theorem roomyMachine_creates : ∃ d m, uvmCreate roomyMachine = some (d * 4096, m) ∧ LoadSpace m d ∧
    4 ≤ freeBelow 32768 m.pmm := by
  have hk := kernelMaps_roomyMachine
  obtain ⟨owner, hlay⟩ := hk.layout (by unfold Low; omega) (by rw [pageIsFree_roomyMachine]; decide)
  have hfive : 405 - 400 ≤ freeBelow 32768 roomyMachine.pmm :=
    sub_le_freeBelow (by decide) fun p hlo hhi => by
    rw [pageIsFree_roomyMachine, decide_eq_true_eq]
    omega
  obtain ⟨d, m, owner', hcreate, hd0, -, hlay', -, -, hzero, hcount⟩ := hlay.uvmCreate (by omega)
  obtain ⟨d', hdd, hnew, -⟩ := newSpace_uvmCreate hk (show d * 4096 ≠ 0 by omega) hcreate
  obtain rfl : d' = d := by omega
  refine ⟨d', m, hcreate,
    ⟨⟨_, _, _, owner', Finset.mem_insert_self d' ∅, hlay', .inr ⟨_, _, _, hk, hnew⟩⟩,
    fun v hv => ?_⟩, by omega⟩
  unfold pteAt
  rw [hzero _ hv.table.1 hv.table.2, if_neg (by decide)]
  decide

/-- Eight bytes of code and eight zeros behind them, read-only, across a page boundary. -/
def codePh : Phdr := ⟨1, 512, 0x08048FFC, 8, 16, 5⟩

/-- It is loaded into two pages. -/
theorem elfLoad_programLoaded_code : ∃ d m mapped s', uvmCreate roomyMachine = some (d * 4096, m) ∧
    elfLoad ⟨m, programFs [codePh], .bss⟩ (d * 4096) elfName =
      some (⟨some 0x08048000, mapped⟩, s') ∧
    ProgramLoaded (programFs [codePh]) 0 s'.machine.mem d 0x08048000 := by
  have hholds : HoldsProgram [codePh] := by decide +kernel
  have hfile := hholds.elfFile (by decide) (by decide)
  obtain ⟨hfind, hvalid, -, -, -, -, -, hphs⟩ := id hholds
  obtain ⟨d, m, hcreate, hspace, hfour⟩ := roomyMachine_creates
  obtain ⟨mapped, s', hload⟩ :=
    hfile.elfLoad_ok hfind hvalid hholds.readsWell hspace (by rw [hphs]; exact hfour) .bss
  have hapart : PagesApart (programHeaders (programFs [codePh]) 0) := by
    exact List.pairwise_singleton _ _
  exact ⟨d, m, mapped, s', hcreate, hload, elfLoad_programLoaded hfile hapart hfind hspace hload⟩

end AliOS
