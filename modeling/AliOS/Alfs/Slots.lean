import AliOS.Alfs.Names

/-!
# AliOS.Alfs.Slots

What the calls of `alfs.c` do to one directory slot: they leave it alone, put it out of
use, or fill it in.  `alfs_write` fills in the entry of that name, or a slot that was not
in use; `alfs_mkdir` only such a slot.
-/

namespace AliOS

open Lib List

variable {size i : Nat} {n : CStr} {buf : Option Bytes}

/-! ## entries -/

/-- The entry `j` is the same, byte for byte. -/
def SameEntry (dir dir' : Bytes) (j : Nat) : Prop := ∀ k < 64, dir' (64 * j + k) = dir (64 * j + k)

/-- The names of used entries have their terminator. -/
def Terminated (dir : Bytes) : Prop :=
  ∀ i < alfsMaxFiles, entryUsed dir i = true → (nameOf dir i).length < alfsNameMax

section

variable {dir dir' : Bytes} {j : Nat}

theorem SameEntry.refl (dir : Bytes) (j : Nat) : SameEntry dir dir j := fun _ _ => rfl

theorem SameEntry.flags (h : SameEntry dir dir' j) :
    entryUsed dir' j = entryUsed dir j ∧ entryDir dir' j = entryDir dir j :=
  entryUsed_congr (entry_congr h).2.2

theorem SameEntry.nameOf (h : SameEntry dir dir' j) : nameOf dir' j = nameOf dir j :=
  nameOf_congr fun k hk => h k (by unfold alfsNameMax at hk; omega)

/-- A filled-in entry has the first 51 characters of its name. -/
theorem nameOf_setEntry (base : Bytes) (slot : Nat) (n : CStr) {start flags : Nat}
    (hstart : start < 2 ^ 32) (hsize : size < 2 ^ 32) (hflags : flags < 2 ^ 32) :
    nameOf (setEntry base slot n start size flags) slot = (n.take (alfsNameMax - 1)).chars := by
  obtain ⟨-, -, -, hname⟩ := setEntry_self base slot n hstart hsize hflags
  have hlen : (n.take (alfsNameMax - 1)).chars.length ≤ alfsNameMax - 1 := length_take_le _ _
  refine (takeWhile_slice_eq (n.take (alfsNameMax - 1)).noNul
    (by unfold alfsNameMax at *; omega)).mpr
    fun k hk => ?_
  rw [hname k (by unfold alfsNameMax at *; omega)]
  simp only [CStr.get, CStr.take, getD_eq_getElem?_getD, List.getElem?_take]
  split <;> simp

theorem length_take_lt (n : CStr) : (n.take (alfsNameMax - 1)).chars.length < alfsNameMax := by
  have hlen : (n.take (alfsNameMax - 1)).chars.length ≤ alfsNameMax - 1 := length_take_le _ _
  unfold alfsNameMax at *
  omega

/-- `streq` holds for one string at most. -/
theorem streq_inj {a : Bytes} {p q : CStr} (hp : streq a p.chars) (hq : streq a q.chars) :
    p = q := by
  rw [streq_eq_true p.noNul] at hp
  rw [streq_eq_true q.noNul] at hq
  -- a shorter one would end where the longer one has a character
  have hle : ∀ {p q : CStr}, (∀ k ≤ p.chars.length, a k = p.get k) →
      (∀ k ≤ q.chars.length, a k = q.get k) →
      q.length ≤ p.length := by
    intro p q hp hq
    by_contra hlt
    have hlt : p.length < q.length := by omega
    refine CStr.get_of_lt hlt ?_
    rw [← hq _ (Nat.le_of_lt hlt)]
    exact (hp p.length le_rfl).trans (CStr.get_of_le le_rfl)
  have hlen : p.length = q.length := Nat.le_antisymm (hle hq hp) (hle hp hq)
  refine CStr.ext (ext_getElem hlen fun k hkp hkq => ?_)
  have hk := (hp k (Nat.le_of_lt hkp)).symm.trans (hq k (Nat.le_of_lt hkq))
  simpa [List.getD, List.getElem?_eq_getElem hkp, List.getElem?_eq_getElem hkq] using hk

/-- A used entry with a terminator is found under its name only. -/
theorem Terminated.streq (h : Terminated dir) (hi : i < alfsMaxFiles) (hu : entryUsed dir i)
    (hs : streq (entryName dir i) n.chars) :
    n.length < alfsNameMax ∧ nameOf dir i = n.chars := by
  let m : CStr := ⟨nameOf dir i, fun c hc => by simpa using List.all_eq_true.mp all_takeWhile c hc⟩
  have hm : m.length < alfsNameMax := h i hi hu
  have hmn : m = n := streq_inj ((streq_entryName hm).mpr rfl) hs
  rw [← hmn]
  exact ⟨hm, rfl⟩

end

/-! ## the calls -/

section

variable (fs : Fs)

/-- `alfs_write` and the slot `j`: the slot it has chosen is put out of use, or holds a
file under the name of the call. -/
theorem alfsWrite_slot (n : CStr) (buf : Option Bytes) (hsize : size < 2 ^ 32) (j : Nat) :
    SameEntry fs.dir (alfsWrite fs (some n) buf size).2.dir j ∨
      ∃ base, Chosen fs.dir n j base ∧ (entryUsed (alfsWrite fs (some n) buf size).2.dir j = false ∨
        IsFile (alfsWrite fs (some n) buf size).2.dir j ∧
          nameOf (alfsWrite fs (some n) buf size).2.dir j = (n.take (alfsNameMax - 1)).chars) := by
  obtain ⟨heq, -⟩ | ⟨n', slot, base, hn, -, -, hch, hout⟩ := alfsWrite_cases fs (some n) buf size
  · rw [heq]
    exact .inl (.refl _ _)
  · cases hn
    obtain ⟨-, hcases⟩ := hout.dir_cases
    obtain ⟨hfree, hother⟩ := hch.base_spec
    by_cases hj : j = slot
    · subst hj
      refine .inr ⟨base, hch, ?_⟩
      obtain ⟨-, hdir⟩ | ⟨hdir, -⟩ := hcases
      · exact .inl (by rw [hdir]; exact hfree)
      · refine .inr ?_
        rw [hdir]
        have hst := highWater_lt base
        have hflags :=
          (setEntry_self base j n hst hsize (show alfsFlagUsed < 2 ^ 32 by decide)).2.2.1
        exact ⟨entryUsed_of_flags hflags, nameOf_setEntry base j n hst hsize (by decide)⟩
    · refine .inl fun k hk => ?_
      obtain ⟨-, hdir⟩ | ⟨hdir, -⟩ := hcases
      · rw [hdir]
        exact hother j hj k hk
      · rw [hdir, setEntry_other base hj n _ _ _ k hk]
        exact hother j hj k hk

theorem alfsWrite_ready (name : Option CStr) (buf : Option Bytes) (size : Nat) :
    (alfsWrite fs name buf size).2.ready = fs.ready := by
  obtain ⟨heq, -⟩ | ⟨n, slot, base, -, -, -, -, hout⟩ := alfsWrite_cases fs name buf size
  · rw [heq]
  · exact hout.dir_cases.1

/-- `alfs_mkdir` and the slot `j`. -/
theorem alfsMkdir_slot (path : Option CStr) (j : Nat) : (alfsMkdir fs path).2.ready = fs.ready ∧
    (SameEntry fs.dir (alfsMkdir fs path).2.dir j ∨
      ∃ p, path = some p ∧ findEntry fs.dir p = none ∧ firstUnused fs.dir = some j ∧
        nameOf (alfsMkdir fs path).2.dir j = (p.take (alfsNameMax - 1)).chars) := by
  obtain ⟨heq, -⟩ | ⟨p, slot, rfl, -, hfind, hslot, ok, fs', hflush, heq⟩ := alfsMkdir_cases fs path
  · rw [heq]
    exact ⟨rfl, .inl (.refl _ _)⟩
  · obtain ⟨hdir, hready⟩ := flush_keeps hflush
    rw [heq]
    refine ⟨hready, ?_⟩
    rw [hdir]
    by_cases hj : j = slot
    · subst hj
      exact .inr ⟨p, rfl, hfind, hslot, nameOf_setEntry _ j p (by decide) (by decide) (by decide)⟩
    · exact .inl (setEntry_other _ hj p _ _ _)

/-- `alfs_delete` and the slot `j`. -/
theorem alfsDelete_slot (name : Option CStr) (j : Nat) : (alfsDelete fs name).2.ready = fs.ready ∧
    (SameEntry fs.dir (alfsDelete fs name).2.dir j ∨
      entryUsed (alfsDelete fs name).2.dir j = false ∧
      ∃ n, name = some n ∧ findEntry fs.dir n = some j) := by
  obtain ⟨heq, -⟩ | ⟨n, slot, rfl, -, hfind, ok, fs', hflush, heq⟩ := alfsDelete_cases fs name
  · rw [heq]
    exact ⟨rfl, .inl (.refl _ _)⟩
  · obtain ⟨hdir, hready⟩ := flush_keeps hflush
    rw [heq]
    refine ⟨hready, ?_⟩
    rw [hdir]
    by_cases hj : j = slot
    · subst hj
      exact .inr ⟨entryUsed_setFlags_zero _ _, n, rfl, hfind⟩
    · exact .inl fun k hk => setFlags_of_notMem (by omega)

variable {fs} in
/-- What `alfs_find` finds. -/
theorem alfsFind_nonneg (h : ¬alfsFind fs (some n) < 0) :
    ∃ i, fs.ready ∧ findEntry fs.dir n = some i ∧ alfsFind fs (some n) = i := by
  unfold alfsFind at h ⊢
  dsimp only at h ⊢
  by_cases hready : fs.ready = true
  · have hno : ¬(!fs.ready) := by simp [hready]
    rw [if_neg hno] at h ⊢
    cases hfind : findEntry fs.dir n with
    | none => simp [hfind, slotOrFail] at h
    | some i => exact ⟨i, hready, rfl, rfl⟩
  · simp [hready] at h

variable {fs} in
/-- `alfs_stat` succeeds for the used entries. -/
theorem alfsStat_eq_some {idx : Int} {bytes : List UInt8}
    (h : alfsStat fs idx = some (bytes, size)) :
    ∃ i : Nat, idx = i ∧ i < alfsMaxFiles ∧ entryUsed fs.dir i ∧
      bytes = slice fs.dir (64 * i) alfsNameMax := by
  unfold alfsStat at h
  split at h
  · simp at h
  · split at h
    · simp at h
    · rename_i hu
      obtain ⟨hbytes, -⟩ := Prod.mk.inj (Option.some.inj h)
      exact ⟨idx.toNat, by omega, by omega, by simpa using hu, hbytes.symm⟩

/-- Reading writes nothing. -/
theorem alfsRead_frame (idx : Int) (max : Nat) : (alfsRead fs idx max).2.ready = fs.ready ∧
    (alfsRead fs idx max).2.dir = fs.dir := by
  rw [alfsRead_eq]
  split <;> exact ⟨rfl, rfl⟩

theorem alfsPread_frame (idx : Int) (len off : Nat) :
    (alfsPread fs idx len off).2.ready = fs.ready ∧
    (alfsPread fs idx len off).2.dir = fs.dir := by
  rw [alfsPread_eq]
  split <;> exact ⟨rfl, rfl⟩

end

section

variable {fs : Fs}

theorem Terminated.write (h : Terminated fs.dir) (n : CStr) (buf : Option Bytes)
    (hsize : size < 2 ^ 32) :
    Terminated (alfsWrite fs (some n) buf size).2.dir := by
  intro i hi hu
  obtain hsame | ⟨-, -, hfree | ⟨-, hname⟩⟩ := alfsWrite_slot fs n buf hsize i
  · rw [hsame.nameOf]
    exact h i hi (hsame.flags.1 ▸ hu)
  · simp [hfree] at hu
  · rw [hname]
    exact length_take_lt n

theorem Terminated.delete (h : Terminated fs.dir) (name : Option CStr) :
    Terminated (alfsDelete fs name).2.dir := by
  intro i hi hu
  obtain ⟨-, hsame | ⟨hfree, -⟩⟩ := alfsDelete_slot fs name i
  · rw [hsame.nameOf]
    exact h i hi (hsame.flags.1 ▸ hu)
  · simp [hfree] at hu

/-- After `alfs_write` has succeeded, the slot it returns holds a file under the name, if
the name fits. -/
theorem alfsWrite_written (hsize : size < 2 ^ 32) (hret : 0 ≤ (alfsWrite fs (some n) buf size).1) :
    ∃ slot base, Chosen fs.dir n slot base ∧
      IsFile (alfsWrite fs (some n) buf size).2.dir slot ∧
      nameOf (alfsWrite fs (some n) buf size).2.dir slot = (n.take (alfsNameMax - 1)).chars := by
  obtain ⟨heq, -⟩ | ⟨n', slot, base, hn, -, -, hch, hout⟩ := alfsWrite_cases fs (some n) buf size
  · simp [heq] at hret
  · cases hn
    obtain ⟨-, ⟨hfail, -⟩ | ⟨hdir, -⟩⟩ := hout.dir_cases
    · omega
    · have hst := highWater_lt base
      have hflags :=
        (setEntry_self base slot n hst hsize (show alfsFlagUsed < 2 ^ 32 by decide)).2.2.1
      rw [hdir]
      exact ⟨slot, base, hch, entryUsed_of_flags hflags,
        nameOf_setEntry base slot n hst hsize (by decide)⟩

/-- What is found under the name then is a file. -/
theorem alfsWrite_found (h : Terminated fs.dir) (hsize : size < 2 ^ 32)
    (hret : 0 ≤ (alfsWrite fs (some n) buf size).1)
    (hfind : findEntry (alfsWrite fs (some n) buf size).2.dir n = some i) :
    entryDir (alfsWrite fs (some n) buf size).2.dir i = false := by
  obtain ⟨slot, base, hch, hfile, hname⟩ := alfsWrite_written hsize hret
  obtain ⟨hi, hu, hs, hmin⟩ := findEntry_eq_some.mp hfind
  obtain ⟨hfits, hni⟩ := (h.write n buf hsize).streq hi hu hs
  obtain hsame | ⟨-, -, hfree | ⟨hfile', -⟩⟩ := alfsWrite_slot fs n buf hsize i
  · -- an older entry of that name would be the one written
    by_cases hslot : i = slot
    · exact hslot ▸ hfile.2
    · exfalso
      have hold : entryUsed fs.dir i = true ∧ streq (entryName fs.dir i) n.chars :=
        ⟨hsame.flags.1 ▸ hu, (streq_entryName hfits).mpr (hsame.nameOf.symm.trans hni)⟩
      obtain ⟨hf, -, -⟩ | ⟨hf, -, -⟩ := hch
      · obtain ⟨-, -, -, hfirst⟩ := findEntry_eq_some.mp hf
        have hlt : slot < i := by
          by_contra hge
          exact hfirst i (by omega) hold
        refine hmin slot hlt ⟨hfile.1, (streq_entryName hfits).mpr (hname.trans ?_)⟩
        rw [CStr.take_of_length_le (by unfold alfsNameMax at *; omega)]
      · exact findEntry_eq_none.mp hf i hi hold
  · simp [hfree] at hu
  · exact hfile'.2

/-- A path that named a file names no directory then. -/
theorem alfsWrite_found_other (h : Terminated fs.dir) {p : CStr} (hsize : size < 2 ^ 32)
    (hret : 0 ≤ (alfsWrite fs (some n) buf size).1) {i0 : Nat} (hold : findEntry fs.dir p = some i0)
    (hfile : entryDir fs.dir i0 = false)
    (hfind : findEntry (alfsWrite fs (some n) buf size).2.dir p = some i) :
    entryDir (alfsWrite fs (some n) buf size).2.dir i = false := by
  obtain ⟨hi, hu, hs, hmin⟩ := findEntry_eq_some.mp hfind
  obtain ⟨-, hu0, hs0, hmin0⟩ := findEntry_eq_some.mp hold
  obtain ⟨hfits, hname⟩ := (h.write n buf hsize).streq hi hu hs
  obtain hsame | ⟨-, -, hfree | ⟨hfile', -⟩⟩ := alfsWrite_slot fs n buf hsize i
  · by_contra hdir
    have hdir : entryDir fs.dir i := by rw [← hsame.flags.2]; simpa using hdir
    -- the file stands before the directory of the same name
    have hlt : i0 < i := by
      rcases Nat.lt_trichotomy i0 i with hlt | rfl | hgt
      · exact hlt
      · simp [hfile] at hdir
      · exact absurd ⟨hsame.flags.1 ▸ hu, (streq_entryName hfits).mpr (hsame.nameOf ▸ hname)⟩
          (hmin0 i hgt)
    obtain hsame0 | ⟨base, ⟨hf, -, -⟩ | ⟨-, hf, -⟩, -⟩ := alfsWrite_slot fs n buf hsize i0
    · exact hmin i0 hlt ⟨hsame0.flags.1.trans hu0,
        (streq_entryName hfits).mpr (hsame0.nameOf.trans ((streq_entryName hfits).mp hs0))⟩
    · obtain rfl : n = p := streq_inj (findEntry_eq_some.mp hf).2.2.1 hs0
      have hfound := alfsWrite_found h hsize hret hfind
      simp [hsame.flags.2, hdir] at hfound
    · simp [(firstUnused_eq_some.mp hf).2.1] at hu0
  · simp [hfree] at hu
  · exact hfile'.2

end

end AliOS
