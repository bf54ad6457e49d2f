import AliOS.Elf.History

/-!
# AliOS.Elf.Contents

What `elf_load` builds.  The pages of a program are described without the loader: a segment
touches some pages, and it has an image of each of them, made from the bytes of the file and
zeros.  A loaded address space shows, at every page, the image of the last segment that touches
it: each segment takes a fresh frame for each of its pages, and `uvm_map` replaces what was
there.

`Placing` says this of a state of the segment loop.  It rests on `Layout`, by which the new frames
and tables are apart from all others, and on `ClearsLow`, by which the loader never clears a
frame beyond the identity map: there is none, or the store faults.
-/

namespace AliOS

open Lib Function List Option

variable {off len f v n : Nat}

/-! ## files -/

/-- The bytes of the file in entry `i`. -/
def fileData (fs : Fs) (i : Nat) : Bytes := fun k => fs.disk.data (512 * entryStart fs.dir i + k)

/-- The file has the bytes from `off` on, in sectors that the drive has. -/
def FileHas (fs : Fs) (i off len : Nat) : Prop :=
  len = 0 ∨ off + len ≤ entrySize fs.dir i ∧ entryStart fs.dir i + sectorsOf (off + len) ≤ 2 ^ 28

/-- The files are the same. -/
structure SameFiles (fs fs' : Fs) : Prop where
  dir : fs'.dir = fs.dir
  data : fs'.disk.data = fs.disk.data

section

variable {fs fs' fs'' : Fs} {i : Nat}

theorem SameFiles.refl (fs : Fs) : SameFiles fs fs := ⟨rfl, rfl⟩

theorem SameFiles.trans (h : SameFiles fs fs') (h' : SameFiles fs' fs'') : SameFiles fs fs'' :=
  ⟨h'.dir.trans h.dir, h'.data.trans h.data⟩

theorem SameFiles.fileData (h : SameFiles fs fs') (i : Nat) : fileData fs' i = fileData fs i := by
  unfold AliOS.fileData
  rw [h.dir, h.data]

theorem SameFiles.fileHas (h : SameFiles fs fs') (hhas : FileHas fs i off len) :
    FileHas fs' i off len := by
  unfold FileHas at *
  rwa [h.dir]

theorem FileHas.part (h : FileHas fs i off len) {off' len' : Nat} (hlo : off ≤ off')
    (hhi : off' + len' ≤ off + len) : FileHas fs i off' len' := by
  unfold FileHas sectorsOf at *
  omega

/-- A read in a file that goes well. -/
theorem FileHas.alfsPread (h : FileHas fs i off len) (hok : 0 ≤ (alfsPread fs i len off).1.1) :
    (alfsPread fs i len off).1.2 = slice (fileData fs i) off len ∧
      SameFiles fs (alfsPread fs i len off).2 := by
  have hmin : min len (entrySize fs.dir i - off) = len := by
    unfold FileHas at h
    omega
  have hread := alfsPread_some hok (by
    rw [Int.toNat_natCast, hmin]
    exact h.imp_right And.right)
  rw [Int.toNat_natCast, hmin] at hread
  refine ⟨hread.1.trans (slice_congr fun k _ => ?_), (alfsPread_frame _ _ _ _).2, hread.2⟩
  unfold AliOS.fileData
  rw [Nat.add_assoc]

end

/-! ## segments -/

instance (ph : Phdr) : Decidable ph.Loads := inferInstanceAs (Decidable (_ ∧ _))

/-- The segment has bytes in page `v`. -/
def Phdr.Touches (ph : Phdr) (v : Nat) : Prop :=
  ph.Loads ∧ ph.vaddr / 4096 ≤ v ∧ v * 4096 < ph.vaddr + ph.memsz

instance (ph : Phdr) (v : Nat) : Decidable (ph.Touches v) := inferInstanceAs (Decidable (_ ∧ _))

/-- The byte at address `a` in a segment's own pages. -/
def Phdr.byteAt (ph : Phdr) (fs : Fs) (i a : Nat) : UInt8 :=
  if ph.vaddr ≤ a ∧ a < ph.vaddr + ph.filesz then fileData fs i (ph.offset + (a - ph.vaddr)) else 0

/-- A page as a process sees it: the flags of its entry and its bytes. -/
@[ext] structure PageImage where
  flags : Nat
  bytes : Fin 4096 → UInt8

def Phdr.pageImage (ph : Phdr) (fs : Fs) (i v : Nat) : PageImage :=
  ⟨ph.pteFlags ||| pagePresent, fun j => ph.byteAt fs i (v * 4096 + j)⟩

/-- The page `v` of directory `d`, if there is one. -/
def spaceImage (mem : Bytes) (d v : Nat) : Option PageImage :=
  if hasFlag (pteAt mem d v) pagePresent then
    some ⟨pteAt mem d v % 4096, page mem (pteAt mem d v / 4096)⟩
  else none

/-- A segment lies in user space, and the file has its bytes. -/
structure Phdr.Fits (ph : Phdr) (fs : Fs) (i : Nat) : Prop where
  filesz : ph.filesz ≤ ph.memsz
  start : 0x08000000 ≤ ph.vaddr
  stop : ph.vaddr + ph.memsz ≤ 0xC0000000
  file : FileHas fs i ph.offset ph.filesz

section

variable {ph : Phdr} {fs fs' : Fs} {i v : Nat}

theorem SameFiles.fits (h : SameFiles fs fs') (hfits : ph.Fits fs i) : ph.Fits fs' i :=
  ⟨hfits.filesz, hfits.start, hfits.stop, h.fileHas hfits.file⟩

theorem Phdr.Fits.userAddr (h : ph.Fits fs i) (hl : ph.Loads) : UserAddr ph.vaddr := by
  obtain ⟨-, hstart, hstop, -⟩ := h
  have := hl.2
  unfold UserAddr
  omega

theorem Phdr.Fits.userPage (h : ph.Fits fs i) (hv : ph.Touches v) : UserPage v := by
  obtain ⟨-, hstart, hstop, -⟩ := h
  obtain ⟨-, hlo, hhi⟩ := hv
  unfold UserPage
  omega

/-- The pages that the loop goes through are those that are touched. -/
theorem Phdr.Fits.touches_iff (h : ph.Fits fs i) (hl : ph.Loads) :
    ph.Touches v ↔ ph.vaddr / 4096 ≤ v ∧ v < ph.vaddr / 4096 + ph.pages := by
  obtain ⟨-, -, hstop, -⟩ := h
  have hmod : (ph.vaddr + ph.memsz + 4095) % 2 ^ 32 = ph.vaddr + ph.memsz + 4095 :=
    Nat.mod_eq_of_lt (by omega)
  unfold Phdr.Touches Phdr.pages Phdr.vaEnd Phdr.vaPage
  rw [and_iff_right hl, hmod]
  omega

/-- The addresses in page `v` that come from the file. -/
theorem Phdr.Fits.copyRange (h : ph.Fits fs i) (hv : ph.Touches v) :
    ph.copyLo (v * 4096) = max (v * 4096) ph.vaddr ∧
      ph.copyHi (v * 4096) = min (v * 4096 + 4096) (ph.vaddr + ph.filesz) := by
  obtain ⟨hsize, hstart, hstop, -⟩ := h
  obtain ⟨-, hlo, hhi⟩ := hv
  have hnext : (v * 4096 + 4096) % 2 ^ 32 = v * 4096 + 4096 := by omega
  have hvaHi : ph.fileVaHi = ph.vaddr + ph.filesz := Nat.mod_eq_of_lt (by omega)
  constructor
  · unfold Phdr.copyLo
    split <;> omega
  · unfold Phdr.copyHi
    split <;> omega

/-- The part of the file that is read for a page, and where it goes. -/
theorem Phdr.Fits.readPage (h : ph.Fits fs i) (hv : ph.Touches v)
    (hok : 0 ≤ (ph.readPage fs i (v * 4096)).1.1) :
    SameFiles fs (ph.readPage fs i (v * 4096)).2 ∧ ∀ j < 4096,
      (if ph.copyLo (v * 4096) - v * 4096 ≤ j ∧
          j < ph.copyLo (v * 4096) - v * 4096 + (ph.readPage fs i (v * 4096)).1.2.length then
        (ph.readPage fs i (v * 4096)).1.2.getD (j - (ph.copyLo (v * 4096) - v * 4096)) 0
      else 0) = ph.byteAt fs i (v * 4096 + j) := by
  obtain ⟨hcopyLo, hcopyHi⟩ := h.copyRange hv
  have hfile := h.file
  by_cases hsome : ph.copyLo (v * 4096) < ph.copyHi (v * 4096)
  · have hread : ph.readPage fs i (v * 4096) =
        alfsPread fs i (ph.copyHi (v * 4096) - ph.copyLo (v * 4096))
          (ph.offset + (ph.copyLo (v * 4096) - ph.vaddr)) := by
      have hlt := Nat.lt_of_le_of_lt (hfile.resolve_left (by omega)).1 (load32_lt _ _)
      unfold Phdr.readPage
      rw [if_pos hsome, Nat.mod_eq_of_lt (by omega)]
    rw [hread] at hok ⊢
    obtain ⟨hbytes, hsame⟩ := (hfile.part (by omega) (by omega)).alfsPread hok
    refine ⟨hsame, fun j hj => ?_⟩
    rw [hbytes, length_slice]
    unfold Phdr.byteAt
    by_cases hin : ph.vaddr ≤ v * 4096 + j ∧ v * 4096 + j < ph.vaddr + ph.filesz
    · rw [if_pos hin, if_pos (by omega), getD_slice (by omega),
        show ph.offset + (ph.copyLo (v * 4096) - ph.vaddr) +
        (j - (ph.copyLo (v * 4096) - v * 4096)) = ph.offset + (v * 4096 + j - ph.vaddr) by omega]
    · rw [if_neg hin, if_neg (by omega)]
  · have hread : ph.readPage fs i (v * 4096) = ((0, []), fs) := by
      unfold Phdr.readPage
      rw [if_neg hsome]
    rw [hread]
    refine ⟨.refl fs, fun j hj => ?_⟩
    unfold Phdr.byteAt
    rw [length_nil, if_neg (by omega), if_neg (by omega)]

end

/-! ## one page -/

/-- The loader clears no frame beyond the identity map: none is free, or the directory `d` was
made under maps that do not reach them. -/
def ClearsLow (m : Machine) (kt : Nat → Nat) (d : Nat) : Prop :=
  OnlyLow m.pmm ∨ ∃ m₀ c k, KernelMaps m₀ kt c k ∧ NewSpace m₀ m kt d

/-- A state of the segment loop in which the space shows `img`. -/
structure Placing (fs : Fs) (ds : Finset Nat) (kt : Nat → Nat) (k d : Nat)
    (img : Nat → Option PageImage) (st : Image) : Prop where
  layout : ∃ owner, Layout st.machine ds kt k owner
  clears : ClearsLow st.machine kt d
  files : SameFiles fs st.fs
  image : ∀ v, UserPage v → spaceImage st.machine.mem d v = img v

section

variable {m m' : Machine} {ds : Finset Nat} {kt : Nat → Nat} {k d : Nat}

theorem ClearsLow.low (h : ClearsLow m kt d) (hf : f < pagesMax) (hfree : pageIsFree m.pmm f)
    (hw : m.kwrite (f * 4096) ≠ none) : Low f := by
  obtain honly | ⟨m₀, c, k, hk, hnew⟩ := h
  · exact honly f hf hfree
  · exact hk.low_of_kwrite hnew.untouched hf (hnew.untouched.free hfree) hw

/-- A table that could be made has a frame below 128 MB. -/
theorem ClearsLow.room (h : ClearsLow m kt d) {c va phys flags : Nat} (hid : IdMapped m kt c)
    (hlow : Low d)
    (hva : va / 2 ^ 22 < 1024) (hmap : uvmMap m (d * 4096) va phys flags = some (0, m'))
    (habs : ¬hasFlag (word m.mem d (va / 2 ^ 22)) pagePresent) : 0 < freeBelow 32768 m.pmm := by
  obtain ⟨⟨pt, m₁⟩, htab, hrest⟩ := bind_eq_some_iff.mp hmap
  unfold uvmTable at htab
  rw [hid.kload32 hlow hva, bind_some, if_neg habs] at htab
  by_cases h0 : m.alloc.1 = 0
  · rw [if_pos h0] at htab
    obtain ⟨rfl, -⟩ := Prod.mk.inj (some.inj htab)
    simp at hrest
  · obtain ⟨f, hf, -, hfree, halloc⟩ := Machine.alloc_spec h0
    rw [if_neg h0, halloc] at htab
    obtain ⟨m₂, hclear, -⟩ := bind_eq_some_iff.mp htab
    have hflow := h.low hf hfree fun hnone => by
      rw [show clearTable { m with pmm := m.pmm.grant f } (f * 4096) = none
        from clearTable_none hnone] at hclear
      cases hclear
    have hcount := freeBelow_grant hflow hfree
    omega

theorem spaceImage_eq_none {mem : Bytes} {d : Nat} :
    spaceImage mem d v = none ↔ hasFlag (pteAt mem d v) pagePresent = false := by
  unfold spaceImage
  cases hasFlag (pteAt mem d v) pagePresent <;> simp

/-- A page is entered into the space, in a new frame with the content that it has in `mem`. -/
theorem Layout.place {owner : Nat → Option Role} (h : Layout m ds kt k owner)
    (hd : d ∈ ds) {flags : Nat}
    (hv : UserPage v) (hlow : Low f) (hfree : pageIsFree m.pmm f) {mem : Bytes}
    (honly : OnlyFrame f m.mem mem) (hflags : flags < 4096) (huser : hasFlag flags pageUser)
    (hroom : ¬hasFlag (word m.mem d (v / 1024)) pagePresent → 1 < freeBelow 32768 m.pmm) :
    ∃ m' owner', AliOS.uvmMap { m with mem := mem, pmm := m.pmm.grant f } (d * 4096) (v * 4096)
      (f * 4096) flags =
        some (0, m') ∧ Layout m' ds kt k owner' ∧
      (∀ u, UserPage u → spaceImage m'.mem d u =
        if u = v then some ⟨flags ||| pagePresent, page mem f⟩ else spaceImage m.mem d u) ∧
      freeBelow 32768 m.pmm ≤ freeBelow 32768 m'.pmm + 2 := by
  obtain ⟨m', owner', hmap, -, hlay', hgrow, ⟨-, hpage⟩, hpte', -, hcount⟩ :=
    h.mapFresh hd hv hlow hfree honly hflags huser hroom
  have hor : flags ||| pagePresent < 4096 := Nat.or_lt_two_pow (n := 12) hflags (by decide)
  refine ⟨m', owner', hmap, hlay', fun u hu => ?_, by split at hcount <;> omega⟩
  have hpte := hpte' d hd u hu
  unfold spaceImage
  by_cases huv : u = v
  · subst huv
    rw [if_pos ⟨rfl, rfl⟩] at hpte
    rw [if_pos rfl, hpte, hasFlag_mul_or _ _ (by decide), hasFlag_or, mul_or_div hor, hpage,
      if_pos (by simp [show hasFlag pagePresent pagePresent = true by decide])]
    refine congrArg some (PageImage.ext ?_ rfl)
    dsimp only
    rw [Nat.mul_comm, ← Nat.two_pow_add_eq_or_of_lt (i := 12) hor]
    omega
  · rw [if_neg fun hc => huv hc.2] at hpte
    rw [if_neg huv, hpte]
    by_cases hp : hasFlag (pteAt m.mem d u) pagePresent = true
    · rw [if_pos hp, if_pos hp, hgrow.data _ _ (h.pages d hd u hu hp).1]
    · rw [if_neg hp, if_neg hp]

variable {fs : Fs} {img : Nat → Option PageImage} {st st' : Image} {i v : Nat} {ph : Phdr}

theorem Phdr.hasFlag_pteFlags (ph : Phdr) : hasFlag ph.pteFlags pageUser := by
  unfold Phdr.pteFlags
  split <;> decide

/-- The frame of a page, filled. -/
theorem Placing.fill (h : Placing fs ds kt k d img st) (hfits : ph.Fits fs i) (hv : ph.Touches v)
    (hlow : Low f) (hfree : pageIsFree st.machine.pmm f) :
    ∃ mem, ((zeroPage { st.machine with pmm := st.machine.pmm.grant f } (f * 4096)).bind fun m =>
        storeBytes m (f * 4096 + (ph.copyLo (v * 4096) - v * 4096))
          (ph.readPage st.fs i (v * 4096)).1.2) =
          some { st.machine with mem := mem, pmm := st.machine.pmm.grant f } ∧
            OnlyFrame f st.machine.mem mem ∧
      (0 ≤ (ph.readPage st.fs i (v * 4096)).1.1 → page mem f = (ph.pageImage fs i v).bytes) := by
  obtain ⟨owner, hlay⟩ := h.layout
  obtain ⟨c, hid, hc⟩ := hlay.idMapped
  have hpage : ph.vaPage ≤ v * 4096 := by
    unfold Phdr.vaPage
    have := hv.2.1
    omega
  obtain ⟨mem, hfill, honly, hbytes⟩ :=
    hid.freshPage hlow (hlay.outside hc (by simp [hlay.unowned hfree]))
    (ph.length_readPage st.fs i hpage) (st.machine.pmm.grant f)
  refine ⟨mem, hfill, honly, fun hread => funext fun j => ?_⟩
  show mem (f * 4096 + j) = ph.byteAt fs i (v * 4096 + j)
  rw [hbytes j j.isLt, ((h.files.fits hfits).readPage hv hread).2 j j.isLt, Phdr.byteAt,
    h.files.fileData i]
  rfl

/-- One page of a segment. -/
theorem Placing.elfPage (h : Placing fs ds kt k d img st) (hd : d ∈ ds) (hfits : ph.Fits fs i)
    (hv : ph.Touches v) (hf : st.failed = false)
    (hrun : elfPage (d * 4096) i ph (v * 4096) st = some st') (hf' : st'.failed = false) :
    Placing fs ds kt k d (update img v (some (ph.pageImage fs i v))) st' := by
  obtain ⟨owner, hlay⟩ := h.layout
  have huser := hfits.userPage hv
  obtain ⟨-, hihi⟩ := huser.table
  obtain ⟨-, rfl⟩ | ⟨h0, m₁, m₂, hzero, hstore,
    rfl | ⟨hread, ret, m3, hmap, ⟨-, rfl⟩ | ⟨rfl, rfl⟩⟩⟩ :=
    elfPage_cases hrun hf
  · cases hf'
  · cases hf'
  · cases hf'
  obtain ⟨f, hfmax, -, hfree, halloc⟩ := Machine.alloc_spec h0
  rw [halloc] at hzero hstore hmap
  have hlow := h.clears.low hfmax hfree fun hnone => by
    rw [show zeroPage { st.machine with pmm := st.machine.pmm.grant f } (f * 4096) = none
      from zeroPage_none hnone]
      at hzero
    cases hzero
  obtain ⟨mem, hfill, honly, hbytes⟩ := h.fill hfits hv hlow hfree
  rw [hzero, bind_some, hstore] at hfill
  cases hfill
  have hclears : ClearsLow { st.machine with mem := mem, pmm := st.machine.pmm.grant f } kt d ∧
      ClearsLow m3 kt d := by
    obtain honlyLow | ⟨m₀, c, k', hk, hnew⟩ := h.clears
    · have hgrant : OnlyLow (st.machine.pmm.grant f) := fun g hg hgfree => honlyLow g hg (by
        rw [pageIsFree_grant, Bool.and_eq_true] at hgfree
        exact hgfree.1)
      exact ⟨.inl hgrant, .inl fun g hg hgfree => hgrant g hg ((uvmMap_takes hmap).free g hgfree)⟩
    · obtain ⟨hfd, hgrant⟩ := hnew.grant hfree
      have hfilled := hgrant.fill (hnew.untouched.free hfree) hfd honly
      have hlo : 0x08000000 ≤ v * 4096 ∧ v * 4096 < 0xC0000000 := by
        unfold UserPage at huser
        omega
      exact ⟨.inr ⟨m₀, c, k', hk, hfilled⟩,
        .inr ⟨m₀, c, k', hk, (hfilled.uvmMap hk hlo.1 hlo.2 hmap).1⟩⟩
  -- the table could be made, so there was a frame for it
  have hroom : ¬hasFlag (word st.machine.mem d (v / 1024)) pagePresent = true →
      1 < freeBelow 32768 st.machine.pmm := fun habs => by
    obtain ⟨c, hid, -⟩ := (hlay.grant hlow hfree honly (.data v) d).1.1.idMapped
    have htaken := freeBelow_grant hlow hfree
    have hpos := hclears.1.room hid (hlay.dir_low hd) (show v * 4096 / 2 ^ 22 < 1024 by omega) hmap
      (by
      rw [show v * 4096 / 2 ^ 22 = v / 1024 by omega]
      rwa [hlay.word_onlyFrame hd hfree honly (by omega)])
    dsimp only at hpos
    omega
  obtain ⟨m4, owner', hmap', hlay', himage, -⟩ :=
    hlay.place hd huser hlow hfree honly ph.pteFlags_lt ph.hasFlag_pteFlags hroom
  obtain rfl : m4 = m3 := congrArg Prod.snd (some.inj (hmap'.symm.trans hmap))
  refine ⟨⟨owner', hlay'⟩, hclears.2, h.files.trans ((h.files.fits hfits).readPage hv hread).1,
    fun u hu => ?_⟩
  rw [himage u hu, hbytes hread, h.image u hu]
  by_cases huv : u = v
  · rw [if_pos huv, huv, update_self]
    rfl
  · rw [if_neg huv, update_of_ne huv]

/-- With two frames below 128 MB a page is loaded. -/
theorem Placing.elfPage_ok (h : Placing fs ds kt k d img st) (hd : d ∈ ds) (hfits : ph.Fits fs i)
    (hv : ph.Touches v) (hf : st.failed = false) (hread : 0 ≤ (ph.readPage st.fs i (v * 4096)).1.1)
    (hroom : 2 ≤ freeBelow 32768 st.machine.pmm) :
    ∃ m, AliOS.elfPage (d * 4096) i ph (v * 4096) st =
        some ⟨false, m, (ph.readPage st.fs i (v * 4096)).2, st.mapped ++ [v * 4096]⟩ ∧
      freeBelow 32768 st.machine.pmm ≤ freeBelow 32768 m.pmm + 2 := by
  obtain ⟨owner, hlay⟩ := h.layout
  obtain ⟨f, hlow, hf0, hfree, halloc⟩ := Machine.alloc_below (by decide) hlay.zero
    (show 0 < freeBelow 32768 st.machine.pmm by omega)
  obtain ⟨mem, hfill, honly, -⟩ := h.fill hfits hv hlow hfree
  obtain ⟨m, owner', hmap, -, -, hcount⟩ :=
    hlay.place hd (hfits.userPage hv) hlow hfree honly ph.pteFlags_lt
    ph.hasFlag_pteFlags fun _ => by omega
  refine ⟨m, ?_, hcount⟩
  rw [elfPage_of_alloc hf hf0 halloc, hfill, bind_some, if_neg (by omega), hmap]
  rfl

/-! ## the segments -/

/-- The last of the segments that touch page `v`. -/
def lastOn (phs : List Phdr) (v : Nat) : Option Phdr :=
  phs.reverse.find? fun ph => decide (ph.Touches v)

theorem lastOn_concat (phs : List Phdr) (ph : Phdr) (v : Nat) :
    lastOn (phs ++ [ph]) v = if ph.Touches v then some ph else lastOn phs v := by
  unfold lastOn
  rw [reverse_append, reverse_singleton, singleton_append, List.find?_cons]
  by_cases h : ph.Touches v
  · rw [decide_eq_true h, if_pos h]
  · rw [decide_eq_false h, if_neg h]

theorem lastOn_eq_none {phs : List Phdr} : lastOn phs v = none ↔ ∀ ph ∈ phs, ¬ph.Touches v := by
  unfold lastOn
  rw [List.find?_eq_none]
  simp only [mem_reverse, decide_eq_true_eq]

theorem lastOn_eq_some {phs : List Phdr} {ph : Phdr} (h : lastOn phs v = some ph) :
    ph ∈ phs ∧ ph.Touches v := by
  have htouch := List.find?_some h
  exact ⟨mem_reverse.mp (List.mem_of_find?_eq_some h), of_decide_eq_true htouch⟩

/-- What the segments show, the later ones before the others. -/
def segmentsImage (fs : Fs) (i : Nat) (phs : List Phdr) (v : Nat) : Option PageImage :=
  (lastOn phs v).map fun ph => ph.pageImage fs i v

theorem Placing.congr (h : Placing fs ds kt k d img st) {img' : Nat → Option PageImage}
    (heq : ∀ v, img' v = img v) : Placing fs ds kt k d img' st := by
  obtain rfl : img' = img := funext heq
  exact h

/-- The pages of a segment. -/
theorem Placing.elfPages (h : Placing fs ds kt k d img st) (hd : d ∈ ds) (hfits : ph.Fits fs i)
    (hl : ph.Loads)
    (hrun : forRangeM (fun n => AliOS.elfPage (d * 4096) i ph (ph.vaPage + 4096 * n))
      0 ph.pages st = some st')
    (hf' : st'.failed = false) :
    Placing fs ds kt k d (fun v => if ph.Touches v then some (ph.pageImage fs i v) else img v)
      st' := by
  have hinv := forRangeM_induct (fun n t => t.failed = false → Placing fs ds kt k d
    (fun v => if ph.vaddr / 4096 ≤ v ∧ v < ph.vaddr / 4096 + n then some (ph.pageImage fs i v)
      else img v) t) hrun
    (fun _ => h.congr fun v => if_neg (by omega)) fun n t t' _ hn hinv hstep hft' => ?_
  · refine (hinv hf').congr fun v => ?_
    rw [Nat.zero_add]
    simp only [hfits.touches_iff hl]
  have hft : t.failed = false := by
    cases hft : t.failed with
    | false => rfl
    | true =>
      obtain rfl := some.inj ((elfPage_failed hft).symm.trans hstep)
      rw [hft] at hft'
      cases hft'
  rw [show ph.vaPage + 4096 * n =
    (ph.vaddr / 4096 + n) * 4096 by unfold Phdr.vaPage; omega] at hstep
  have htouch : ph.Touches (ph.vaddr / 4096 + n) := (hfits.touches_iff hl).mpr (by omega)
  refine ((hinv hft).elfPage hd hfits htouch hft hstep hft').congr fun v => ?_
  by_cases hv : v = ph.vaddr / 4096 + n
  · rw [hv, update_self, if_pos (by omega)]
  · rw [update_of_ne hv]
    by_cases hin : ph.vaddr / 4096 ≤ v ∧ v < ph.vaddr / 4096 + n
    · rw [if_pos hin, if_pos (by omega)]
    · rw [if_neg hin, if_neg (by omega)]

/-- **The segment loop**: every page shows the last segment that touches it. -/
theorem Placing.elfSegments {phBuf : Bytes} (h : Placing fs ds kt k d (fun _ => none) st)
    (hd : d ∈ ds) (hfits : ∀ j < n, (phdr phBuf j).Loads → (phdr phBuf j).Fits fs i)
    (hrun : forRangeM (elfSegment (d * 4096) i phBuf) 0 n st = some st')
    (hf' : st'.failed = false) :
    Placing fs ds kt k d (segmentsImage fs i ((List.range n).map (phdr phBuf))) st' := by
  have hinv := forRangeM_induct (fun n t => t.failed = false →
    Placing fs ds kt k d (segmentsImage fs i ((List.range n).map (phdr phBuf))) t) hrun (fun _ => h)
    fun j t t' _ hj hinv hstep hft' => ?_
  · rw [Nat.zero_add] at hinv
    exact hinv hf'
  have himage : ∀ v, segmentsImage fs i ((List.range (j + 1)).map (phdr phBuf)) v =
      if (phdr phBuf j).Touches v then some ((phdr phBuf j).pageImage fs i v)
      else segmentsImage fs i ((List.range j).map (phdr phBuf)) v := fun v => by
    unfold segmentsImage
    rw [range_succ, map_append, map_singleton, lastOn_concat]
    split <;> rfl
  obtain ⟨hft, rfl⟩ | ⟨hft, ⟨hno, rfl⟩ | ⟨hl, ⟨-, rfl⟩ | ⟨-, hpages⟩⟩⟩ := elfSegment_cases hstep
  · rw [hft] at hft'
    cases hft'
  · exact (hinv hft).congr fun v => (himage v).trans (if_neg fun hv => hno hv.1)
  · cases hft'
  · exact ((hinv hft).elfPages hd (hfits j (by omega) hl) hl hpages hft').congr himage

/-- Pages that are taken for the segments. -/
def pagesOf (phs : List Phdr) : Nat := (phs.map fun ph => if ph.Loads then ph.pages else 0).sum

theorem pagesOf_range_succ (phBuf : Bytes) (j : Nat) :
    pagesOf ((List.range (j + 1)).map (phdr phBuf)) =
    pagesOf ((List.range j).map (phdr phBuf)) + if (phdr phBuf j).Loads then (phdr phBuf j).pages
      else 0 := by
  unfold pagesOf
  rw [range_succ, map_append, map_append, sum_append]
  simp

theorem pagesOf_range_mono (phBuf : Bytes) {j : Nat} (h : j ≤ n) :
    pagesOf ((List.range j).map (phdr phBuf)) ≤ pagesOf ((List.range n).map (phdr phBuf)) := by
  induction n, h using Nat.le_induction with
  | base => exact le_rfl
  | succ n _ ih =>
    rw [pagesOf_range_succ]
    exact Nat.le_add_right_of_le ih

/-- The transfers of a load do not fail. -/
def ReadsWell (fs : Fs) (i : Nat) : Prop :=
  ∀ len off, len ≤ 4096 → 0 ≤ (alfsPread fs i len off).1.1 ∧ (alfsPread fs i len off).2 = fs

theorem ReadsWell.readPage (h : ReadsWell fs i) (hfits : ph.Fits fs i) (hv : ph.Touches v) :
    0 ≤ (ph.readPage fs i (v * 4096)).1.1 ∧ (ph.readPage fs i (v * 4096)).2 = fs := by
  obtain ⟨hlo, hhi⟩ := hfits.copyRange hv
  unfold Phdr.readPage
  split
  · exact h _ _ (by omega)
  · exact ⟨Int.le_refl 0, rfl⟩

theorem Placing.elfPages_ok (h : Placing fs ds kt k d img st) (hd : d ∈ ds) (hfits : ph.Fits fs i)
    (hl : ph.Loads) (hreads : ReadsWell fs i) (hfs : st.fs = fs) (hf : st.failed = false)
    (hroom : 2 * ph.pages ≤ freeBelow 32768 st.machine.pmm) :
    ∃ st', forRangeM (fun n => AliOS.elfPage (d * 4096) i ph (ph.vaPage + 4096 * n)) 0 ph.pages st =
      some st' ∧
      st'.failed = false ∧ st'.fs = fs ∧
      freeBelow 32768 st.machine.pmm ≤ freeBelow 32768 st'.machine.pmm + 2 * ph.pages := by
  obtain ⟨st', hrun, -, hf', hfs', hcount⟩ := forRangeM_total
    (fun n t => (∃ img', Placing fs ds kt k d img' t) ∧ t.failed = false ∧ t.fs = fs ∧
      freeBelow 32768 st.machine.pmm ≤ freeBelow 32768 t.machine.pmm + 2 * n)
    (f := fun n => AliOS.elfPage (d * 4096) i ph (ph.vaPage + 4096 * n)) (a := 0)
      (n := ph.pages) (s := st)
    ⟨⟨img, h⟩, hf, hfs, Nat.le_add_right _ _⟩ fun n t _ hn ⟨⟨img', ht⟩, hft, hfst, _⟩ => by
      have htouch : ph.Touches (ph.vaddr / 4096 + n) := (hfits.touches_iff hl).mpr (by omega)
      obtain ⟨hread, hsame⟩ := hreads.readPage hfits htouch
      rw [← hfst] at hread
      obtain ⟨m, hstep, hcount'⟩ := ht.elfPage_ok hd hfits htouch hft hread (by omega)
      refine ⟨_, ?_, ⟨_, ht.elfPage hd hfits htouch hft hstep rfl⟩, rfl, ?_, by dsimp only; omega⟩
      · rw [show ph.vaPage + 4096 * n = (ph.vaddr / 4096 + n) * 4096 by unfold Phdr.vaPage; omega]
        exact hstep
      · rw [hfst, hsame]
  rw [Nat.zero_add] at hcount
  exact ⟨st', hrun, hf', hfs', hcount⟩

theorem Placing.elfSegments_ok {phBuf : Bytes} (h : Placing fs ds kt k d (fun _ => none) st)
    (hd : d ∈ ds)
    (hfits : ∀ j < n, (phdr phBuf j).Loads → (phdr phBuf j).Fits fs i) (hreads : ReadsWell fs i)
    (hfs : st.fs = fs) (hf : st.failed = false)
    (hroom : 2 * pagesOf ((List.range n).map (phdr phBuf)) ≤ freeBelow 32768 st.machine.pmm) :
    ∃ st', forRangeM (elfSegment (d * 4096) i phBuf) 0 n st = some st' ∧ st'.failed = false := by
  obtain ⟨st', hrun, -, hf', -⟩ := forRangeM_total
    (fun j t => (∃ img', Placing fs ds kt k d img' t) ∧ t.failed = false ∧ t.fs = fs ∧
      freeBelow 32768 st.machine.pmm ≤
        freeBelow 32768 t.machine.pmm + 2 * pagesOf ((List.range j).map (phdr phBuf)))
    (f := elfSegment (d * 4096) i phBuf) (a := 0) (n := n) (s := st)
    ⟨⟨_, h⟩, hf, hfs, by simp [pagesOf]⟩ fun j t _ hj ⟨⟨img', ht⟩, hft, hfst, hcount⟩ => by
      have hle := pagesOf_range_mono phBuf (show j + 1 ≤ n by omega)
      rw [pagesOf_range_succ] at hle ⊢
      by_cases hl : (phdr phBuf j).Loads
      · rw [if_pos hl] at hle ⊢
        have hfit := hfits j (by omega) hl
        obtain ⟨t', hstep, hft', hfst', hcount'⟩ :=
          ht.elfPages_ok hd hfit hl hreads hfst hft (by omega)
        refine ⟨t', ?_, ⟨_, ht.elfPages hd hfit hl hstep hft'⟩, hft', hfst', by omega⟩
        unfold elfSegment
        rw [if_neg (by simp [hft]), if_neg (not_not.mpr hl.1), if_neg hl.2,
          if_neg (not_not.mpr (hfit.userAddr hl))]
        exact hstep
      · rw [if_neg hl]
        refine ⟨t, ?_, ⟨img', ht⟩, hft, hfst, hcount⟩
        unfold elfSegment
        rw [if_neg (by simp [hft])]
        by_cases htype : (phdr phBuf j).type = ptLoad
        · rw [if_neg (not_not.mpr htype), if_pos (by_contra fun hmem => hl ⟨htype, hmem⟩)]
        · rw [if_pos htype]
  exact ⟨st', hrun, hf'⟩

end

/-! ## elf_load -/

/-- The program headers in a file. -/
def programHeaders (fs : Fs) (i : Nat) : List Phdr :=
  (List.range (ePhnum (fileData fs i))).map
    (phdr fun k => fileData fs i (ePhoff (fileData fs i) + k))

/-- `sizeof(Elf32_Ehdr)` -/
def ehdrSize : Nat := 52

/-- A file with its headers and all that they describe.  The checks on the header are the
loader's. -/
structure ElfFile (fs : Fs) (i : Nat) : Prop where
  header : FileHas fs i 0 ehdrSize
  table : FileHas fs i (ePhoff (fileData fs i)) (ePhnum (fileData fs i) * phdrSize)
  segments : ∀ ph ∈ programHeaders fs i, ph.Loads → ph.Fits fs i

/-- The space of directory `d` is empty and can be filled. -/
structure LoadSpace (m : Machine) (d : Nat) : Prop where
  layout : ∃ ds kt k owner, d ∈ ds ∧ Layout m ds kt k owner ∧ ClearsLow m kt d
  empty : ∀ v, UserPage v → hasFlag (pteAt m.mem d v) pagePresent = false

section

variable {fs fs' : Fs} {i : Nat} {filename : CStr} {m : Machine} {d : Nat}

/-- The header, as the first read finds it. -/
theorem ElfFile.hdrBuf (h : ElfFile fs i) (hfind : alfsFind fs (some filename) = i)
    (hok : 0 ≤ (headerRead fs filename).1.1)
    (buf : Bytes) : SameFiles fs (headerRead fs filename).2 ∧
      ∀ k < hdrLooked, fillBuf buf (headerRead fs filename).1.2 k = fileData fs i k := by
  have hsize := h.header.resolve_left (by decide)
  unfold headerRead at *
  rw [hfind] at hok ⊢
  unfold sectorsOf ehdrSize at hsize
  have hmin : 52 ≤ min hdrBufSize (entrySize fs.dir i - 0) ∧
      min hdrBufSize (entrySize fs.dir i - 0) ≤ 512 := by
    unfold hdrBufSize
    omega
  have hread := alfsPread_some hok (by
    rw [Int.toNat_natCast]
    unfold sectorsOf
    omega)
  rw [Int.toNat_natCast] at hread
  refine ⟨⟨(alfsPread_frame _ _ _ _).2, hread.2⟩, fun k hk => ?_⟩
  unfold hdrLooked at hk
  rw [hread.1, fillBuf_of_lt (by rw [length_slice]; omega), getD_slice (by omega)]
  rfl

/-- The buffers hold the headers of the file. -/
theorem ElfFile.elfHeaders (h : ElfFile fs i) (hfind : alfsFind fs (some filename) = i)
    {b b' : ElfBufs} {idx : Int} (hhdr : elfHeaders fs b filename = (some idx, fs', b')) :
    idx = i ∧ SameFiles fs fs' ∧ eEntry b'.hdrBuf = eEntry (fileData fs i) ∧
      (List.range (ePhnum b'.hdrBuf)).map (phdr b'.phBuf) = programHeaders fs i := by
  rw [elfHeaders_eq, hfind, if_neg (by omega)] at hhdr
  dsimp only at hhdr
  by_cases hbad : (headerRead fs filename).1.1 < 0 ∨
      validHeader (fillBuf b.hdrBuf (headerRead fs filename).1.2) = false
  · rw [if_pos hbad] at hhdr
    cases hhdr
  obtain ⟨hsame, hbytes⟩ := h.hdrBuf hfind (Int.not_lt.mp (not_or.mp hbad).1) b.hdrBuf
  obtain ⟨hentry, hoff, hnum⟩ := header_congr hbytes
  rw [if_neg hbad, hoff, hnum] at hhdr
  by_cases hneg : (alfsPread (headerRead fs filename).2 i (ePhnum (fileData fs i) * phdrSize)
      (ePhoff (fileData fs i))).1.1 < 0
  · rw [if_pos hneg] at hhdr
    cases hhdr
  obtain ⟨htable, hsame'⟩ := (hsame.fileHas h.table).alfsPread (Int.not_lt.mp hneg)
  rw [hsame.fileData] at htable
  rw [if_neg hneg] at hhdr
  cases hhdr
  refine ⟨rfl, hsame.trans hsame', hentry, ?_⟩
  dsimp only
  rw [hnum]
  refine map_congr_left fun j hj => phdr_congr fun k hk => ?_
  have hlt : phdrSize * j + k < ePhnum (fileData fs i) * phdrSize := by
    have := mem_range.mp hj
    unfold phdrSize at *
    omega
  rw [htable, fillBuf_of_lt (by rwa [length_slice]), getD_slice hlt]

theorem LoadSpace.placing {ds : Finset Nat} {kt : Nat → Nat} {k : Nat} {owner : Nat → Option Role}
    (h : LoadSpace m d) (hlay : Layout m ds kt k owner) (hclears : ClearsLow m kt d)
    (hsame : SameFiles fs fs') :
    Placing fs ds kt k d (fun _ => none) ⟨false, m, fs', []⟩ :=
  ⟨⟨owner, hlay⟩, hclears, hsame, fun v hv => spaceImage_eq_none.mpr (h.empty v hv)⟩

/-- **What `elf_load` builds** in an empty address space: the entry point of the file, and at
every page the last segment that touches it.  The tables allow what the pages do. -/
theorem ElfFile.elfLoad (h : ElfFile fs i) (hfind : alfsFind fs (some filename) = i)
    (hspace : LoadSpace m d) {b : ElfBufs} {entry : Nat} {mapped : List Nat} {s' : Loader}
    (hload : elfLoad ⟨m, fs, b⟩ (d * 4096) filename = some (⟨some entry, mapped⟩, s')) :
    entry = eEntry (fileData fs i) ∧
      (∀ v, UserPage v → spaceImage s'.machine.mem d v = segmentsImage fs i (programHeaders fs i)
        v) ∧
      ∀ v, UserPage v → hasFlag (word s'.machine.mem d (v / 1024)) pagePresent →
        hasFlag (word s'.machine.mem d (v / 1024)) pageWrite ∧
          hasFlag (word s'.machine.mem d (v / 1024)) pageUser := by
  obtain ⟨idx, fs', b', st, hhdr, hrun, hf, hentry, rfl, rfl⟩ := elfLoad_succeeded hload
  obtain ⟨rfl, hsame, hent, hphs⟩ := h.elfHeaders hfind hhdr
  obtain ⟨ds, kt, k, owner, hd, hlay, hclears⟩ := hspace.layout
  have hplaced := (hspace.placing hlay hclears hsame).elfSegments hd
    (fun j hj hl => h.segments _ (by
    rw [← hphs]
    exact List.mem_map_of_mem (mem_range.mpr hj)) hl) hrun hf
  rw [hphs] at hplaced
  obtain ⟨owner', hlay'⟩ := hplaced.layout
  exact ⟨hentry.trans hent, hplaced.image, fun v hv hp =>
    (hlay'.tables d hd _ hv.table.1 hv.table.2 hp).2⟩

/-- The headers of a program are accepted if they can be read. -/
theorem ElfFile.elfHeaders_ok (h : ElfFile fs i) (hfind : alfsFind fs (some filename) = i)
    (hvalid : validHeader (fileData fs i)) (hreads : ReadsWell fs i) (b : ElfBufs) :
    ∃ b', AliOS.elfHeaders fs b filename = (some (i : Int), fs, b') := by
  have hhdr := hreads hdrBufSize 0 (by decide)
  have hread : headerRead fs filename = AliOS.alfsPread fs i hdrBufSize 0 := by
    unfold headerRead
    rw [hfind]
  rw [← hread] at hhdr
  obtain ⟨-, hbytes⟩ := h.hdrBuf hfind hhdr.1 b.hdrBuf
  obtain ⟨-, hoff, hnum⟩ := header_congr hbytes
  have hlen : ePhnum (fileData fs i) * phdrSize ≤ 4096 := by
    have hmany : ePhnum (fileData fs i) ≤ maxPhdr := by
      simp only [validHeader, Bool.and_eq_true, Bool.not_eq_true', Bool.or_eq_false_iff,
        decide_eq_false_iff_not] at hvalid
      omega
    unfold maxPhdr at hmany
    unfold phdrSize
    omega
  obtain ⟨htable, hsame⟩ := hreads _ (ePhoff (fileData fs i)) hlen
  refine ⟨⟨fillBuf b.hdrBuf (headerRead fs filename).1.2,
    fillBuf b.phBuf (AliOS.alfsPread fs i (ePhnum (fileData fs i) * phdrSize)
      (ePhoff (fileData fs i))).1.2⟩, ?_⟩
  rw [elfHeaders_eq, hfind, if_neg (by omega)]
  dsimp only
  have hok : ¬((headerRead fs filename).1.1 < 0 ∨
      validHeader (fillBuf b.hdrBuf (headerRead fs filename).1.2) = false) := by
    rw [validHeader_congr hbytes, hvalid]
    simp only [Bool.true_eq_false, or_false]
    omega
  rw [if_neg hok, hoff, hnum, hhdr.2, if_neg (by omega), hsame]

/-- **`elf_load` loads a program** if there are two frames for each page and the drive works. -/
theorem ElfFile.elfLoad_ok (h : ElfFile fs i) (hfind : alfsFind fs (some filename) = i)
    (hvalid : validHeader (fileData fs i)) (hreads : ReadsWell fs i) (hspace : LoadSpace m d)
    (hroom : 2 * pagesOf (programHeaders fs i) ≤ freeBelow 32768 m.pmm) (b : ElfBufs) :
    ∃ mapped s', AliOS.elfLoad ⟨m, fs, b⟩ (d * 4096) filename =
      some (⟨some (eEntry (fileData fs i)), mapped⟩, s') := by
  obtain ⟨b', hhdr⟩ := h.elfHeaders_ok hfind hvalid hreads b
  obtain ⟨-, -, hent, hphs⟩ := h.elfHeaders hfind hhdr
  obtain ⟨ds, kt, k, owner, hd, hlay, hclears⟩ := hspace.layout
  have hstart := hspace.placing hlay hclears (.refl fs)
  obtain ⟨st, hrun, hf⟩ := hstart.elfSegments_ok hd (fun j hj hl => h.segments _ (by
    rw [← hphs]
    exact List.mem_map_of_mem (mem_range.mpr hj)) hl) hreads rfl rfl (by rwa [hphs])
  refine ⟨st.mapped, ⟨st.machine, st.fs, b'⟩, ?_⟩
  rw [elfLoad_some hhdr, hrun, map_some, hf, hent]
  rfl

end

end AliOS
