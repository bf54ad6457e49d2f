import AliOS.Elf.Program

/-!
# AliOS.Elf.Order

The order of the program headers.  Segments that share no byte may still share a page, and the
loader takes a new frame for every page of every segment: the frame of the later segment takes
the place of the other one, whose bytes are lost.  So the order does not matter only where the
segments that lose have nothing but zeros.
-/

namespace AliOS

open Lib Option

/-- The segments share no byte. -/
def BytesApart (phs : List Phdr) : Prop := phs.Pairwise fun p q => p.Loads → q.Loads →
  p.vaddr + p.memsz ≤ q.vaddr ∨ q.vaddr + q.memsz ≤ p.vaddr

/-- The file in entry `i'` is the one in entry `i` with its program headers in another order. -/
structure Reordered (fs : Fs) (i : Nat) (fs' : Fs) (i' : Nat) : Prop where
  headers : (programHeaders fs' i').Perm (programHeaders fs i)
  bytes : ∀ ph ∈ programHeaders fs i, ph.Loads → ∀ k < ph.filesz,
    fileData fs' i' (ph.offset + k) = fileData fs i (ph.offset + k)

/-- Two spaces show the same bytes, and each segment of the file is among them. -/
structure SameProgram (fs : Fs) (i : Nat) (mem : Bytes) (d : Nat) (mem' : Bytes)
    (d' : Nat) : Prop where
  image : ∀ a, UserAddr a → userRead mem' (d' * 4096) a = userRead mem (d * 4096) a
  kept : ∀ ph ∈ programHeaders fs i, ph.type = ptLoad → ∀ k < ph.memsz,
    userRead mem (d * 4096) (ph.vaddr + k) =
      some (if k < ph.filesz then fileData fs i (ph.offset + k) else 0)

/-- A segment that is not the last one on a page, in one of two orders, has only zeros there. -/
def OrderFree (fs : Fs) (i : Nat) (phs phs' : List Phdr) : Prop :=
  ∀ ph ∈ phs, ∀ v, ph.Touches v → lastOn phs v ≠ some ph ∨ lastOn phs' v ≠ some ph →
    ∀ a, a / 4096 = v → ph.byteAt fs i a = 0

/-- The byte that segments in this order leave at `a`. -/
def shown (fs : Fs) (i : Nat) (phs : List Phdr) (a : Nat) : Option UInt8 :=
  (lastOn phs (a / 4096)).map fun ph => ph.byteAt fs i a

section

variable {fs fs' : Fs} {i i' : Nat} {phs phs' : List Phdr} {ph q : Phdr} {v a : Nat}

theorem Reordered.byteAt (h : Reordered fs i fs' i') (hph : ph ∈ programHeaders fs i)
    (hl : ph.Loads) (a : Nat) :
    ph.byteAt fs' i' a = ph.byteAt fs i a := by
  unfold Phdr.byteAt
  by_cases hin : ph.vaddr ≤ a ∧ a < ph.vaddr + ph.filesz
  · rw [if_pos hin, if_pos hin, h.bytes ph hph hl _ (by omega)]
  · rw [if_neg hin, if_neg hin]

/-- Where another segment has a byte there is none of this one. -/
theorem BytesApart.byteAt_eq_zero (h : BytesApart phs) (hph : ph ∈ phs) (hq : q ∈ phs)
    (hne : ph ≠ q)
    (hpl : ph.Loads) (hql : q.Loads) (hfits : q.filesz ≤ q.memsz) (hlo : ph.vaddr ≤ a)
    (hhi : a < ph.vaddr + ph.memsz) : q.byteAt fs i a = 0 := by
  have hsymm : Std.Symm fun p q : Phdr => p.Loads → q.Loads →
      p.vaddr + p.memsz ≤ q.vaddr ∨ q.vaddr + q.memsz ≤ p.vaddr :=
        ⟨fun p q hpq hq hp => (hpq hp hq).symm⟩
  have hapart := h.forall hph hq hne hpl hql
  unfold Phdr.byteAt
  rw [if_neg (by omega)]

/-- There is a last segment on each page that one touches. -/
theorem lastOn_of_touches (hph : ph ∈ phs) (hv : ph.Touches v) : ∃ q, lastOn phs v = some q := by
  cases hlast : lastOn phs v with
  | none => exact absurd hv (lastOn_eq_none.mp hlast ph hph)
  | some q => exact ⟨q, rfl⟩

/-- A segment that loses a page is not seen there: where its bytes would be, the other one has
none. -/
theorem BytesApart.shown_lost (h : BytesApart phs) (hfits : ∀ q ∈ phs, q.Loads → q.filesz ≤ q.memsz)
    (hsub : ∀ q ∈ phs', q ∈ phs) (hph : ph ∈ phs') (hv : ph.Touches (a / 4096)) (hlo : ph.vaddr ≤ a)
    (hhi : a < ph.vaddr + ph.memsz) (hlose : lastOn phs' (a / 4096) ≠ some ph) :
    shown fs i phs' a = some 0 := by
  obtain ⟨q, hq⟩ := lastOn_of_touches hph hv
  obtain ⟨hmem, hqv⟩ := lastOn_eq_some hq
  have hne : ph ≠ q := fun heq => hlose (heq ▸ hq)
  have hfitq := hfits q (hsub q hmem) hqv.1
  rw [shown, hq, map_some,
    h.byteAt_eq_zero (hsub ph hph) (hsub q hmem) hne hv.1 hqv.1 hfitq hlo hhi]

/-- Both orders show the same. -/
theorem OrderFree.shown_eq (h : OrderFree fs i phs phs') (hperm : phs'.Perm phs) (a : Nat) :
    shown fs i phs' a = shown fs i phs a := by
  unfold shown
  cases hlast : lastOn phs (a / 4096) with
  | none => rw [lastOn_eq_none.mpr fun ph hph => lastOn_eq_none.mp hlast ph (hperm.mem_iff.mp hph)]
  | some p =>
    obtain ⟨hp, hpv⟩ := lastOn_eq_some hlast
    obtain ⟨q, hq⟩ := lastOn_of_touches (hperm.mem_iff.mpr hp) hpv
    obtain ⟨hmem, hqv⟩ := lastOn_eq_some hq
    rw [hq, map_some, map_some]
    by_cases hpq : p = q
    · rw [hpq]
    · -- each of them loses the page in one order
      rw [h p hp _ hpv (.inr (by rw [hq]; simpa using Ne.symm hpq)) a rfl,
        h q (hperm.mem_iff.mp hmem) _ hqv (.inl (by rw [hlast]; simpa using hpq)) a rfl]

/-- They show every byte of a segment. -/
theorem OrderFree.shown_kept (h : OrderFree fs i phs phs') (hapart : BytesApart phs)
    (hfits : ∀ q ∈ phs, q.Loads → q.filesz ≤ q.memsz) (hph : ph ∈ phs) (hv : ph.Touches (a / 4096))
    (hlo : ph.vaddr ≤ a) (hhi : a < ph.vaddr + ph.memsz) :
    shown fs i phs a = some (ph.byteAt fs i a) := by
  by_cases hlast : lastOn phs (a / 4096) = some ph
  · rw [shown, hlast, map_some]
  · rw [hapart.shown_lost hfits (fun _ hq => hq) hph hv hlo hhi hlast,
      h ph hph _ hv (.inl hlast) a rfl]

variable {m m' : Machine} {d d' : Nat} {filename filename' : CStr} {b b' : ElfBufs}
  {entry entry' : Nat}
  {mapped mapped' : List Nat} {s s' : Loader}

/-- **The order of the program headers** plays no role exactly if the segments that lose a page
have only zeros there. -/
theorem elfLoad_order_iff (h : ElfFile fs i) (h' : ElfFile fs' i') (hre : Reordered fs i fs' i')
    (hapart : BytesApart (programHeaders fs i)) (hfind : alfsFind fs (some filename) = i)
    (hfind' : alfsFind fs' (some filename') = i') (hspace : LoadSpace m d)
    (hspace' : LoadSpace m' d')
    (hload : elfLoad ⟨m, fs, b⟩ (d * 4096) filename = some (⟨some entry, mapped⟩, s))
    (hload' : elfLoad ⟨m', fs', b'⟩ (d' * 4096) filename' = some (⟨some entry', mapped'⟩, s')) :
    SameProgram fs i s.machine.mem d s'.machine.mem d' ↔
      OrderFree fs i (programHeaders fs i) (programHeaders fs' i') := by
  have hperm := hre.headers
  have hfits : ∀ ph ∈ programHeaders fs i, ph.Loads → ph.filesz ≤ ph.memsz := fun ph hph hl =>
    (h.segments ph hph hl).filesz
  have hread : ∀ {a}, UserAddr a →
      userRead s.machine.mem (d * 4096) a = shown fs i (programHeaders fs i) a :=
    fun ha => h.userRead hfind hspace hload ha
  have hread' : ∀ {a}, UserAddr a → userRead s'.machine.mem (d' * 4096) a =
      shown fs i (programHeaders fs' i') a := fun {a} ha => by
    rw [h'.userRead hfind' hspace' hload' ha]
    refine Option.map_congr fun ph hlast => ?_
    obtain ⟨hph, hv⟩ := lastOn_eq_some hlast
    exact hre.byteAt (hperm.mem_iff.mp hph) hv.1 a
  have huser : ∀ ph ∈ programHeaders fs i, ph.Loads → ∀ {a}, ph.vaddr ≤ a →
      a < ph.vaddr + ph.memsz →
      UserAddr a := fun ph hph hl a hlo hhi => by
    obtain ⟨-, hstart, hstop, -⟩ := h.segments ph hph hl
    unfold UserAddr
    omega
  constructor
  · rintro hsame ph hph v hv hlose a rfl
    by_cases hin : ph.vaddr ≤ a ∧ a < ph.vaddr + ph.filesz
    · have hmem : a < ph.vaddr + ph.memsz := by
        have := hfits ph hph hv.1
        omega
      have ha := huser ph hph hv.1 hin.1 hmem
      have hkept := hsame.kept ph hph hv.1.1 (a - ph.vaddr) (by omega)
      rw [← ph.byteAt_add, show ph.vaddr + (a - ph.vaddr) = a by omega] at hkept
      obtain hlose | hlose := hlose
      · rw [hread ha, hapart.shown_lost hfits (fun _ hq => hq) hph hv hin.1 hmem hlose] at hkept
        exact (some.inj hkept).symm
      · rw [← hsame.image a ha, hread' ha, hapart.shown_lost hfits (fun q hq => hperm.mem_iff.mp hq)
          (hperm.mem_iff.mpr hph) hv hin.1 hmem hlose] at hkept
        exact (some.inj hkept).symm
    · unfold Phdr.byteAt
      rw [if_neg hin]
  · intro hfree
    refine ⟨fun a ha => ?_, fun ph hph htype j hj => ?_⟩
    · rw [hread ha, hread' ha, hfree.shown_eq hperm]
    · have hv := Phdr.touches_add htype hj
      have hlo := Nat.le_add_right ph.vaddr j
      have hhi := Nat.add_lt_add_left hj ph.vaddr
      rw [hread (huser ph hph hv.1 hlo hhi), hfree.shown_kept hapart hfits hph hv hlo hhi,
        ph.byteAt_add]

end

/-! ## two segments -/

/-- Four bytes at the start of a page. -/
def firstPh : Phdr := ⟨1, 512, 0x08048000, 4, 4, 5⟩

/-- Four bytes at the address `vaddr`. -/
def secondPh (vaddr : Nat) : Phdr := ⟨1, 516, vaddr, 4, 4, 6⟩

theorem reordered_programFs {phs phs' : List Phdr} (h : HoldsProgram phs) (h' : HoldsProgram phs')
    (hperm : phs'.Perm phs) (hbytes : ∀ ph ∈ phs, ∀ k < ph.filesz,
      fileData (programFs phs') 0 (ph.offset + k) = fileData (programFs phs) 0 (ph.offset + k)) :
    Reordered (programFs phs) 0 (programFs phs') 0 := by
  obtain ⟨-, -, -, -, -, -, -, hphs⟩ := h
  obtain ⟨-, -, -, -, -, -, -, hphs'⟩ := h'
  refine ⟨by rwa [hphs, hphs'], fun ph hph _ => ?_⟩
  rw [hphs] at hph
  exact hbytes ph hph

/-- A program of two pages is loaded. -/
theorem HoldsProgram.loads {phs : List Phdr} (h : HoldsProgram phs)
    (hfile : ElfFile (programFs phs) 0)
    (hpages : pagesOf phs ≤ 2) {d : Nat} {m : Machine} (hspace : LoadSpace m d)
    (hfour : 4 ≤ freeBelow 32768 m.pmm) : ∃ entry mapped s,
      elfLoad ⟨m, programFs phs, .bss⟩ (d * 4096) elfName = some (⟨some entry, mapped⟩, s) := by
  obtain ⟨hfind, hvalid, -, -, -, -, -, hphs⟩ := id h
  exact ⟨_, hfile.elfLoad_ok hfind hvalid h.readsWell hspace (by rw [hphs]; omega) .bss⟩

/-- With a page for each segment both orders show the same. -/
theorem elfLoad_order_apart : ∃ d m entry mapped s entry' mapped' s',
    uvmCreate roomyMachine = some (d * 4096, m) ∧
    elfLoad ⟨m, programFs [firstPh, secondPh 0x08049000], .bss⟩ (d * 4096) elfName =
      some (⟨some entry, mapped⟩, s) ∧
    elfLoad ⟨m, programFs [secondPh 0x08049000, firstPh], .bss⟩ (d * 4096) elfName =
      some (⟨some entry', mapped'⟩, s') ∧
    SameProgram (programFs [firstPh, secondPh 0x08049000]) 0 s.machine.mem d s'.machine.mem d := by
  have hholds : HoldsProgram [firstPh, secondPh 0x08049000] := by decide +kernel
  have hholds' : HoldsProgram [secondPh 0x08049000, firstPh] := by decide +kernel
  have hre := reordered_programFs hholds hholds' (List.Perm.swap _ _ _) (by decide +kernel)
  have hfile := hholds.elfFile (by decide) (by decide)
  have hfile' := hholds'.elfFile (by decide) (by decide)
  obtain ⟨d, m, hcreate, hspace, hfour⟩ := roomyMachine_creates
  obtain ⟨entry, mapped, s, hload⟩ := hholds.loads hfile (by decide) hspace hfour
  obtain ⟨entry', mapped', s', hload'⟩ := hholds'.loads hfile' (by decide) hspace hfour
  obtain ⟨hfind, -, -, -, -, -, -, hphs⟩ := id hholds
  obtain ⟨hfind', -, -, -, -, -, -, hphs'⟩ := id hholds'
  have hpages : ∀ v, ¬(firstPh.Touches v ∧ (secondPh 0x08049000).Touches v) := by
    rintro v ⟨⟨-, -, hhi⟩, -, hlo, -⟩
    change v * 4096 < 0x08048004 at hhi
    change 0x08049 ≤ v at hlo
    omega
  have hapart : PagesApart [firstPh, secondPh 0x08049000] := by simpa [PagesApart] using hpages
  have hapart' : PagesApart [secondPh 0x08049000, firstPh] := by
    simpa [PagesApart] using fun v h1 h2 => hpages v ⟨h2, h1⟩
  refine ⟨d, m, entry, mapped, s, entry', mapped', s', hcreate, hload, hload',
    (elfLoad_order_iff hfile hfile' hre ?_ hfind hfind' hspace hspace hload hload').mpr ?_⟩
  · exact List.Pairwise.cons (by decide) (List.pairwise_singleton _ _)
  · rw [hphs, hphs']
    intro ph hph v hv hlose
    rw [hapart.lastOn hph hv, hapart'.lastOn ((List.Perm.swap _ _ _).mem_iff.mpr hph) hv] at hlose
    simp at hlose

/-- With both segments in one page the byte at its start is 0 in one order and the byte of the
file in the other. -/
theorem elfLoad_order_shared : ∃ d m entry mapped s entry' mapped' s',
    uvmCreate roomyMachine = some (d * 4096, m) ∧
    BytesApart [firstPh, secondPh 0x08048800] ∧
    Reordered (programFs [firstPh, secondPh 0x08048800]) 0
      (programFs [secondPh 0x08048800, firstPh]) 0 ∧
    elfLoad ⟨m, programFs [firstPh, secondPh 0x08048800], .bss⟩ (d * 4096) elfName =
      some (⟨some entry, mapped⟩, s) ∧
    elfLoad ⟨m, programFs [secondPh 0x08048800, firstPh], .bss⟩ (d * 4096) elfName =
      some (⟨some entry', mapped'⟩, s') ∧
    ¬SameProgram (programFs [firstPh, secondPh 0x08048800]) 0 s.machine.mem d s'.machine.mem d := by
  have hholds : HoldsProgram [firstPh, secondPh 0x08048800] := by decide +kernel
  have hholds' : HoldsProgram [secondPh 0x08048800, firstPh] := by decide +kernel
  have hre := reordered_programFs hholds hholds' (List.Perm.swap _ _ _) (by decide +kernel)
  have hfile := hholds.elfFile (by decide) (by decide)
  have hfile' := hholds'.elfFile (by decide) (by decide)
  obtain ⟨d, m, hcreate, hspace, hfour⟩ := roomyMachine_creates
  obtain ⟨entry, mapped, s, hload⟩ := hholds.loads hfile (by decide) hspace hfour
  obtain ⟨entry', mapped', s', hload'⟩ := hholds'.loads hfile' (by decide) hspace hfour
  obtain ⟨hfind, -, -, -, -, -, -, hphs⟩ := id hholds
  obtain ⟨hfind', -, -, -, -, -, -, hphs'⟩ := id hholds'
  refine ⟨d, m, entry, mapped, s, entry', mapped', s', hcreate,
    List.Pairwise.cons (by decide) (List.pairwise_singleton _ _), hre, hload, hload',
    fun hsame => ?_⟩
  have huser : UserAddr 0x08048000 := by decide
  have himage := hsame.image _ huser
  rw [hfile.userRead hfind hspace hload huser, hfile'.userRead hfind' hspace hload' huser, hphs,
    hphs',
    show lastOn [secondPh 0x08048800, firstPh] (0x08048000 / 4096) =
      some firstPh by decide] at himage
  revert himage
  decide +kernel

end AliOS
