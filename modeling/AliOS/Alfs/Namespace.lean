import AliOS.Alfs.Slots
import AliOS.Path.Canonical

/-!
# AliOS.Alfs.Namespace

The directory is a flat table; that it is a tree of directories is a property of the names
in it.  AliFS does not look after it: `alfs_write` and `alfs_mkdir` make an entry for any
string.  This module says what the names of a tree are (`WellNamed`) and under which
conditions a call keeps them so.
-/

namespace AliOS

open Lib

/-! ## names of a tree -/

/-- The name of entry `i`. -/
def entryPath (dir : Bytes) (i : Nat) : CStr := CStr.ofBytes (slice dir (64 * i) alfsNameMax)

/-- A used entry of this name is a directory. -/
def UsedDir (dir : Bytes) (p : CStr) : Prop :=
  ∃ j < alfsMaxFiles, entryUsed dir j = true ∧ entryDir dir j = true ∧ entryPath dir j = p

instance (dir : Bytes) (p : CStr) : Decidable (UsedDir dir p) :=
  inferInstanceAs (Decidable (∃ j < alfsMaxFiles, _))

/-- The parent of the path is the root or a directory. -/
def HasParent (dir : Bytes) (p : CStr) : Prop :=
  pathParent p = rootPath ∨ UsedDir dir (pathParent p)

instance (dir : Bytes) (p : CStr) : Decidable (HasParent dir p) :=
  inferInstanceAs (Decidable (_ ∨ _))

/-- The path has its place in the tree: it ends within the field of a name, is canonical,
and its parent is there. -/
structure Placed (dir : Bytes) (p : CStr) : Prop where
  fits : p.length < alfsNameMax
  canonical : Canonical p.chars
  parent : HasParent dir p

/-- The name of every used entry has its place in the tree. -/
def WellNamed (dir : Bytes) : Prop :=
  ∀ i < alfsMaxFiles, entryUsed dir i = true → Placed dir (entryPath dir i)

section

variable {dir dir' : Bytes}

theorem SameEntry.entryPath {j : Nat} (h : SameEntry dir dir' j) :
    entryPath dir' j = entryPath dir j :=
  CStr.ext h.nameOf

theorem WellNamed.terminated (h : WellNamed dir) : Terminated dir := fun i hi hu => (h i hi hu).fits

/-- What is found has its place. -/
theorem WellNamed.of_find (h : WellNamed dir) {n : CStr} {i : Nat}
    (hfind : findEntry dir n = some i) :
    entryPath dir i = n ∧ Placed dir n := by
  obtain ⟨hi, hu, hs, -⟩ := findEntry_eq_some.mp hfind
  have hname : entryPath dir i = n := CStr.ext (h.terminated.streq hi hu hs).2
  exact ⟨hname, hname ▸ h i hi hu⟩

/-- The directories of `dir` are still there. -/
def KeepsDirs (dir dir' : Bytes) : Prop :=
  ∀ j < alfsMaxFiles, entryUsed dir j = true → entryDir dir j = true → SameEntry dir dir' j

theorem KeepsDirs.placed (h : KeepsDirs dir dir') {p : CStr} (hp : Placed dir p) :
    Placed dir' p := by
  refine ⟨hp.fits, hp.canonical, hp.parent.imp_right ?_⟩
  rintro ⟨j, hj, hu, hd, hname⟩
  have hsame := h j hj hu hd
  exact ⟨j, hj, hsame.flags.1.trans hu, hsame.flags.2.trans hd, hsame.entryPath.trans hname⟩

/-- Every used entry is an old one or has its place. -/
theorem WellNamed.next (h : WellNamed dir) (hdirs : KeepsDirs dir dir')
    (hnew : ∀ i < alfsMaxFiles, entryUsed dir' i → SameEntry dir dir' i ∨
      Placed dir (entryPath dir' i)) :
    WellNamed dir' := by
  intro i hi hu
  obtain hsame | hplaced := hnew i hi hu
  · rw [hsame.entryPath]
    exact hdirs.placed (h i hi (hsame.flags.1 ▸ hu))
  · exact hdirs.placed hplaced

end

/-! ## the entries of a name -/

/-- Entry `i` is in use under the name `p`. -/
structure HoldsName (dir : Bytes) (i : Nat) (p : CStr) : Prop where
  lt : i < alfsMaxFiles
  used : entryUsed dir i = true
  name : entryPath dir i = p

section

variable {dir dir' : Bytes} {i j : Nat} {p : CStr}

theorem SameEntry.holdsName (h : SameEntry dir dir' j) :
    HoldsName dir' j p ↔ HoldsName dir j p := by
  constructor
  · exact fun hj => ⟨hj.lt, h.flags.1 ▸ hj.used, h.entryPath ▸ hj.name⟩
  · exact fun hj => ⟨hj.lt, h.flags.1.trans hj.used, h.entryPath.trans hj.name⟩

/-- If names have their terminator, the search for a name finds the entries that hold it. -/
theorem Terminated.holdsName_iff (h : Terminated dir) (hi : i < alfsMaxFiles) :
    entryUsed dir i ∧ AliOS.streq (entryName dir i) p.chars ↔ HoldsName dir i p := by
  constructor
  · rintro ⟨hu, hs⟩
    exact ⟨hi, hu, CStr.ext (h.streq hi hu hs).2⟩
  · intro hh
    have hfits : p.length < alfsNameMax := hh.name ▸ h i hi hh.used
    exact ⟨hh.used, (streq_entryName hfits).mpr (congrArg CStr.chars hh.name)⟩

theorem Terminated.findEntry_eq_some (h : Terminated dir) :
    findEntry dir p = some i ↔ HoldsName dir i p ∧ ∀ j < i, ¬HoldsName dir j p := by
  rw [AliOS.findEntry_eq_some]
  constructor
  · rintro ⟨hi, hu, hs, hfirst⟩
    exact ⟨(h.holdsName_iff hi).mp ⟨hu, hs⟩,
      fun j hj hh => hfirst j hj ((h.holdsName_iff hh.lt).mpr hh)⟩
  · rintro ⟨hh, hfirst⟩
    obtain ⟨hu, hs⟩ := (h.holdsName_iff hh.lt).mpr hh
    exact ⟨hh.lt, hu, hs, fun j hj hj' => hfirst j hj ((h.holdsName_iff (hj.trans hh.lt)).mp hj')⟩

theorem Terminated.findEntry_eq_none (h : Terminated dir) :
    findEntry dir p = none ↔ ∀ i, ¬HoldsName dir i p := by
  rw [AliOS.findEntry_eq_none]
  constructor
  · exact fun hnone i hh => hnone i hh.lt ((h.holdsName_iff hh.lt).mpr hh)
  · exact fun hnone i hi hi' => hnone i ((h.holdsName_iff hi).mp hi')

end

/-! ## the calls -/

section

variable {fs : Fs}

/-- `alfs_write` does not overwrite a directory. -/
theorem keepsDirs_alfsWrite (n : CStr) (buf : Option Bytes) {size : Nat} (hsize : size < 2 ^ 32) :
    KeepsDirs fs.dir (alfsWrite fs (some n) buf size).2.dir := by
  intro j _ hu hd
  obtain hsame | ⟨base, ⟨-, hfile, -⟩ | ⟨-, hunused, -⟩, -⟩ := alfsWrite_slot fs n buf hsize j
  · exact hsame
  · simp [hfile] at hd
  · simp [(firstUnused_eq_some.mp hunused).2.1] at hu

theorem WellNamed.alfsWrite (h : WellNamed fs.dir) {n : CStr} (hn : Placed fs.dir n)
    (buf : Option Bytes)
    {size : Nat} (hsize : size < 2 ^ 32) : WellNamed (alfsWrite fs (some n) buf size).2.dir := by
  refine h.next (keepsDirs_alfsWrite n buf hsize) fun i _ hu => ?_
  obtain hsame | ⟨base, -, hfree | ⟨-, hname⟩⟩ := alfsWrite_slot fs n buf hsize i
  · exact .inl hsame
  · simp [hfree] at hu
  · refine .inr ?_
    have hwhole : entryPath (AliOS.alfsWrite fs (some n) buf size).2.dir i =
        n.take (alfsNameMax - 1) :=
      CStr.ext hname
    rw [hwhole, CStr.take_of_length_le (Nat.le_sub_one_of_lt hn.fits)]
    exact hn

theorem WellNamed.alfsMkdir (h : WellNamed fs.dir) {p : CStr} (hp : Placed fs.dir p) :
    WellNamed (alfsMkdir fs (some p)).2.dir := by
  refine h.next (fun j _ hu _ => ?_) fun i _ _ => ?_
  · obtain ⟨-, hsame | ⟨q, -, -, hunused, -⟩⟩ := alfsMkdir_slot fs (some p) j
    · exact hsame
    · simp [(firstUnused_eq_some.mp hunused).2.1] at hu
  · obtain ⟨-, hsame | ⟨q, hq, -, -, hname⟩⟩ := alfsMkdir_slot fs (some p) i
    · exact .inl hsame
    · cases hq
      have hwhole : entryPath (AliOS.alfsMkdir fs (some p)).2.dir i = p.take (alfsNameMax - 1) :=
        CStr.ext hname
      refine .inr ?_
      rw [hwhole, CStr.take_of_length_le (Nat.le_sub_one_of_lt hp.fits)]
      exact hp

/-- The entries of a directory have to be gone before it. -/
theorem WellNamed.alfsDelete (h : WellNamed fs.dir) {n : CStr}
    (hempty : ∀ i, findEntry fs.dir n = some i → entryDir fs.dir i →
      ∀ j < alfsMaxFiles, entryUsed fs.dir j → pathParent (entryPath fs.dir j) ≠ n) :
    WellNamed (alfsDelete fs (some n)).2.dir := by
  intro i hi hu
  have hsame : SameEntry fs.dir (AliOS.alfsDelete fs (some n)).2.dir i := by
    obtain ⟨-, hsame | ⟨hfree, -⟩⟩ := alfsDelete_slot fs (some n) i
    · exact hsame
    · simp [hfree] at hu
  have hu' : entryUsed fs.dir i := hsame.flags.1 ▸ hu
  have hold := h i hi hu'
  rw [hsame.entryPath]
  refine ⟨hold.fits, hold.canonical, hold.parent.imp_right ?_⟩
  rintro ⟨j, hj, huj, hdj, hname⟩
  obtain ⟨-, hsame' | ⟨-, m, hm, hfind⟩⟩ := alfsDelete_slot fs (some n) j
  · exact ⟨j, hj, hsame'.flags.1.trans huj, hsame'.flags.2.trans hdj, hsame'.entryPath.trans hname⟩
  · -- the parent would be the directory deleted
    cases hm
    exact absurd (hname.symm.trans (h.of_find hfind).1) (hempty j hfind hdj i hi hu')

end

end AliOS
