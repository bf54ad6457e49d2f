import Mathlib.Algebra.BigOperators.Intervals
import Mathlib.Algebra.Order.BigOperators.Group.Finset
import Mathlib.Data.List.GetD
import AliOS.Elf

/-!
# AliOS.Elf.Args

The first stack page of a program.  `elf_push_args` copies the strings from the top of the page
downward, the last one first, and puts the pointers to them below.  Two things can go wrong.
When the strings do not fit, the loop stops at the first one that does not and sets `argc` to
its index: the strings that were copied are those behind it, and the ones that are still counted
have no address.  And the room left for the pointers is 64 bytes, where 15 arguments take 76.

`Copied` is the state of the first loop, `pushFrame` the rest of the function.
-/

namespace AliOS

open Lib Function List

/-! ## the page -/

/-- The page after these stores. -/
def putBytes (page : Bytes) (stores : List (Int × UInt8)) : Bytes :=
  stores.foldl (fun m s k => if (k : Int) = s.1 then s.2 else m k) page

@[simp] theorem putBytes_append (page : Bytes) (l l' : List (Int × UInt8)) :
    putBytes page (l ++ l') = putBytes (putBytes page l) l' := foldl_append

/-- A run of stores is a block. -/
theorem putBytes_mapIdx (page : Bytes) (t : Nat) (bs : List UInt8) :
    putBytes page (bs.mapIdx fun k b => ((t : Int) + k, b)) = blit page t bs.length fun k =>
      bs.getD k 0 := by
  induction bs using List.reverseRecOn with
  | nil => exact (blit_self fun k hk => absurd hk (Nat.not_lt_zero k)).symm
  | append_singleton bs b ih =>
    rw [mapIdx_concat, putBytes_append, ih]
    funext a
    show (if (a : Int) = t + bs.length then b else _) = _
    rw [length_append, length_singleton]
    by_cases ha : t ≤ a ∧ a < t + bs.length
    · rw [if_neg (by omega), blit_of_mem ha, blit_of_mem (by omega), getD_append _ _ _ _ (by omega)]
    · by_cases hlast : a = t + bs.length
      · subst hlast
        simp
      · rw [if_neg (by omega), blit_of_notMem (by omega), blit_of_notMem (by omega)]

/-- The page of a state. -/
def ArgStack.page (s : ArgStack) (page : Bytes) : Bytes := putBytes page s.stores

/-- All that has been stored lies between `top` and the end of the page. -/
structure Downward (s : ArgStack) : Prop where
  top : s.top ≤ 4095
  stores : ∀ x ∈ s.stores, s.top ≤ x.1 ∧ x.1 < 4096

section

variable {s : ArgStack} {page : Bytes}

theorem Downward.write (h : Downward s) {bs : List UInt8} {t : Int} (htop : s.top = t + bs.length) :
    Downward ({ s with top := t }.write bs) := by
  have ht := h.top
  refine ⟨by show t ≤ 4095; omega, fun x hx => ?_⟩
  obtain hx | hx := mem_append.mp hx
  · obtain ⟨hlo, hhi⟩ := h.stores x hx
    exact ⟨by show t ≤ x.1; omega, hhi⟩
  · obtain ⟨k, hk, rfl⟩ := mem_mapIdx.mp hx
    show t ≤ t + k ∧ t + k < 4096
    omega

theorem ArgStack.page_write (page : Bytes) {t : Nat} (htop : s.top = t) (bs : List UInt8) :
    (s.write bs).page page = blit (s.page page) t bs.length fun k => bs.getD k 0 := by
  unfold ArgStack.page ArgStack.write
  rw [putBytes_append, htop, putBytes_mapIdx]

/-! ## pushes -/

@[simp] theorem ArgStack.push_top (w : Nat) : (s.push w).top = s.top - 4 := rfl
@[simp] theorem ArgStack.push_argc (w : Nat) : (s.push w).argc = s.argc := rfl
@[simp] theorem ArgStack.push_strVaddrs (w : Nat) : (s.push w).strVaddrs = s.strVaddrs := rfl

theorem Downward.push (h : Downward s) (w : Nat) : Downward (s.push w) :=
  h.write (by simp)

theorem ArgStack.page_push {t : Nat} (htop : s.top = t + 4) (w : Nat) :
    (s.push w).page page = store32 (s.page page) t w := by
  have hwrite := @ArgStack.page_write { s with top := s.top - 4 } page t
    (show s.top - 4 = t by omega)
    (slice (wordBytes w) 0 4)
  rw [length_slice] at hwrite
  refine hwrite.trans (blit_congr fun k hk => ?_)
  rw [getD_slice hk, Nat.zero_add]

/-- The loop that pushes the array. -/
def pushArray (s : ArgStack) : ArgStack :=
  forRange (fun k s => s.push (s.strVaddrs (s.argc - 1 - k))) 0 s.argc s

/-- `top &= ~3`. -/
def ArgStack.align (s : ArgStack) : ArgStack := { s with top := s.top / 4 * 4 }

@[simp] theorem ArgStack.align_top : s.align.top = s.top / 4 * 4 := rfl
@[simp] theorem ArgStack.align_argc : s.align.argc = s.argc := rfl
@[simp] theorem ArgStack.align_strVaddrs : s.align.strVaddrs = s.strVaddrs := rfl

theorem Downward.align (h : Downward s) : Downward s.align := by
  have ht := h.top
  refine ⟨by rw [ArgStack.align_top]; omega, fun x hx => ?_⟩
  obtain ⟨hlo, hhi⟩ := h.stores x hx
  exact ⟨by rw [ArgStack.align_top]; omega, hhi⟩

/-- `elf_push_args` behind the strings. -/
def pushFrame (s : ArgStack) : ArgStack :=
  let s := pushArray (s.align.push 0)
  ((s.push s.vaddr).push s.argc).push 0

theorem elfPushArgs_eq (argc : Nat) (argv : Nat → CStr) (junk : Nat → Nat) :
    elfPushArgs argc argv junk =
      ((pushFrame (pushStrings argv (min argc 15) ⟨min argc 15, 4095, junk, []⟩)).vaddr,
        (pushFrame (pushStrings argv (min argc 15) ⟨min argc 15, 4095, junk, []⟩)).stores) := by
  have hmin : min argc 15 = if argc > 15 then 15 else argc := by split <;> omega
  rw [hmin]
  rfl

/-- The loop over the pointers, wherever the page ends. -/
theorem pushArray_spec (s : ArgStack) (h : Downward s) :
    (pushArray s).top = s.top - 4 * s.argc ∧ (pushArray s).argc = s.argc ∧
      Downward (pushArray s) := by
  have hloop := forRange_induct (fun k u => u.top = s.top - 4 * k ∧ u.argc = s.argc ∧ Downward u)
    (f := fun k s => s.push (s.strVaddrs (s.argc - 1 - k))) (a := 0) (n := s.argc) (s := s)
    ⟨by simp, rfl, h⟩ fun i u _ _ hu => ⟨by rw [ArgStack.push_top, hu.1]; omega, hu.2.1,
      hu.2.2.push _⟩
  rwa [Nat.zero_add] at hloop

/-- Inside the page the pointers read back, and nothing else changes. -/
theorem pushArray_page {t : Nat} (htop : s.top = t + 4 * s.argc)
    (hwords : ∀ i < s.argc, s.strVaddrs i < 2 ^ 32) :
    (∀ i < s.argc, load32 ((pushArray s).page page) (t + 4 * i) = s.strVaddrs i) ∧
      ∀ a, t + 4 * s.argc ≤ a → (pushArray s).page page a = s.page page a := by
  -- after `k` turns the last `k` pointers are there
  have hloop := forRange_induct (fun k u => u.top = ((t + 4 * (s.argc - k) : Nat) : Int) ∧
    u.argc = s.argc ∧
      u.strVaddrs = s.strVaddrs ∧
      (∀ i < s.argc, s.argc - k ≤ i → load32 (u.page page) (t + 4 * i) = s.strVaddrs i) ∧
      ∀ a, t + 4 * s.argc ≤ a → u.page page a = s.page page a)
    (f := fun k s => s.push (s.strVaddrs (s.argc - 1 - k))) (a := 0) (n := s.argc) (s := s)
    ⟨by rw [htop]; simp, rfl, rfl, fun i hi hk => absurd hk (by omega), fun _ _ => rfl⟩
    fun k u _ hk ⟨hut, huc, huv, hptr, hframe⟩ => by
      obtain ⟨j, hj⟩ : ∃ j, s.argc - k = j + 1 := ⟨s.argc - k - 1, by omega⟩
      have hpage : ∀ w, (u.push w).page page = store32 (u.page page) (t + 4 * j) w :=
        ArgStack.page_push (by rw [hut, hj]; push_cast; omega)
      refine ⟨by rw [ArgStack.push_top, hut]; omega, huc, huv, fun i hi hki => ?_, fun a ha => ?_⟩
      · rw [hpage, huc, huv]
        by_cases hij : i = j
        · subst hij
          rw [show s.argc - 1 - k = i by omega, load32_store32_self (hwords i hi)]
        · rw [load32_store32_of_disjoint (by omega), hptr i hi (by omega)]
      · rw [hpage, store32_of_notMem (by omega), hframe a ha]
  obtain ⟨-, -, -, hptr, hframe⟩ := hloop
  exact ⟨fun i hi => hptr i hi (by omega), hframe⟩

/-! ## the frame -/

/-- The index of the stack pointer. -/
def frameTop (s : ArgStack) : Int := s.top / 4 * 4 - 4 * (s.argc + 4)

theorem pushFrame_spec (h : Downward s) : (pushFrame s).top = frameTop s ∧ Downward (pushFrame s) ∧
    ∃ b, (frameTop s, b) ∈ (pushFrame s).stores := by
  obtain ⟨htop, -, hdown⟩ := pushArray_spec _ (h.align.push 0)
  have htop' : (pushFrame s).top = frameTop s := by
    show _ - 4 - 4 - 4 = frameTop s
    rw [htop, ArgStack.push_top, ArgStack.push_argc, ArgStack.align_top, ArgStack.align_argc,
      frameTop]
    omega
  refine ⟨htop', ((hdown.push _).push _).push _, 0, ?_⟩
  rw [← htop']
  refine mem_append_right _ (mem_mapIdx.mpr ⟨0, by simp, ?_⟩)
  simp [slice, wordBytes, pushFrame]

/-- What a program finds at its stack pointer. -/
structure Framed (p : Bytes) (esp argc : Nat) (strVaddrs : Nat → Nat) : Prop where
  retaddr : load32 p esp = 0
  count : load32 p (esp + 4) = argc
  array : load32 p (esp + 8) = userStackVbase + (esp + 12)
  pointer : ∀ i < argc, load32 p (esp + 12 + 4 * i) = strVaddrs i
  null : load32 p (esp + 12 + 4 * argc) = 0

theorem pushFrame_page {e : Nat} (h : Downward s) (he : frameTop s = e) (hargc : s.argc ≤ 15)
    (hwords : ∀ i < s.argc, s.strVaddrs i < 2 ^ 32) :
    Framed ((pushFrame s).page page) e s.argc s.strVaddrs ∧
      ∀ a : Nat, s.top ≤ a → (pushFrame s).page page a = s.page page a := by
  have ht := h.top
  unfold frameTop at he
  have hnull : (s.align.push 0).page page = store32 (s.page page) (e + 12 + 4 * s.argc) 0 :=
    ArgStack.page_push (by rw [ArgStack.align_top]; omega) 0
  obtain ⟨hptr, hframe⟩ := @pushArray_page (s.align.push 0) page (e + 12)
    (by rw [ArgStack.push_top, ArgStack.align_top, ArgStack.push_argc, ArgStack.align_argc]; omega)
      hwords
  obtain ⟨htop, hcount, -⟩ := pushArray_spec _ (h.align.push 0)
  rw [ArgStack.push_argc, ArgStack.align_argc] at hptr hframe htop hcount
  rw [ArgStack.push_strVaddrs, ArgStack.align_strVaddrs] at hptr
  rw [hnull] at hframe
  rw [ArgStack.push_top, ArgStack.align_top] at htop
  -- from here on only the state behind the array matters
  unfold pushFrame
  generalize pushArray (s.align.push 0) = v at *
  have hvaddr : v.vaddr = userStackVbase + (e + 12) := by
    unfold ArgStack.vaddr userStackVbase
    omega
  have hpage : ((((v.push v.vaddr).push v.argc).push 0).page page) =
      store32 (store32 (store32 (v.page page) (e + 8) v.vaddr) (e + 4) s.argc) e 0 := by
    rw [ArgStack.page_push (t := e) (by simp only [ArgStack.push_top]; omega),
      ArgStack.page_push (t := e + 4) (by simp only [ArgStack.push_top]; omega),
      ArgStack.page_push (t := e + 8) (by omega), hcount]
  have hword : userStackVbase + (e + 12) < 2 ^ 32 := by unfold userStackVbase; omega
  have hload : ∀ a, e + 12 ≤ a → load32 (((v.push v.vaddr).push v.argc).push 0 |>.page page) a =
      load32 (v.page page) a := fun a ha => by
    rw [hpage, load32_store32_of_disjoint (by omega), load32_store32_of_disjoint (by omega),
      load32_store32_of_disjoint (by omega)]
  refine ⟨⟨?_, ?_, ?_, fun i hi => ?_, ?_⟩, fun a ha => ?_⟩
  · rw [hpage, load32_store32_self (by decide)]
  · rw [hpage, load32_store32_of_disjoint (by omega), load32_store32_self (by omega)]
  · rw [hpage, load32_store32_of_disjoint (by omega), load32_store32_of_disjoint (by omega), hvaddr,
      load32_store32_self hword]
  · rw [hload _ (by omega), hptr i hi]
  · rw [hload _ (by omega), load32_congr fun k hk => hframe _ (by omega),
      load32_store32_self (by decide)]
  · rw [hpage, store32_of_notMem (by omega), store32_of_notMem (by omega),
      store32_of_notMem (by omega), hframe a (by omega), store32_of_notMem (by omega)]

/-! ## the strings -/

variable {argv : Nat → CStr} {junk : Nat → Nat} {n i : Nat}

/-- The bytes that the strings from `i` on take. -/
def argsSize (argv : Nat → CStr) (i n : Nat) : Nat := ∑ j ∈ Finset.Ico i n, ((argv j).length + 1)

/-- The strings from `i` on have been copied, and there is room below them. -/
structure Copied (page : Bytes) (argv : Nat → CStr) (junk : Nat → Nat) (n i : Nat)
    (s : ArgStack) : Prop where
  le : i ≤ n
  argc : s.argc = n
  room : argsSize argv i n ≤ 4031
  top : s.top = ((4095 - argsSize argv i n : Nat) : Int)
  down : Downward s
  todo : ∀ j < i, s.strVaddrs j = junk j
  done : ∀ j, i ≤ j → j < n → s.strVaddrs j = userStackVbase + (4095 - argsSize argv j n) ∧
    slice (s.page page) (4095 - argsSize argv j n) ((argv j).length + 1) = (argv j).chars ++ [0]

theorem argsSize_succ (argv : Nat → CStr) (h : i < n) :
    argsSize argv i n = (argv i).length + 1 + argsSize argv (i + 1) n :=
  Finset.sum_eq_sum_Ico_succ_bot h _

theorem argsSize_anti (argv : Nat → CStr) (n : Nat) {i j : Nat} (h : i ≤ j) :
    argsSize argv j n ≤ argsSize argv i n :=
  Finset.sum_le_sum_of_subset (Finset.Ico_subset_Ico_left h)

/-- The string `bs` is copied below `top` as argument `i`. -/
def ArgStack.copy (s : ArgStack) (i : Nat) (bs : List UInt8) : ArgStack :=
  let s' : ArgStack := { s with top := s.top - bs.length }
  { s' with strVaddrs := update s.strVaddrs i s'.vaddr }.write bs

theorem ArgStack.copy_strVaddrs {t : Nat} {bs : List UInt8}
    (htop : s.top = ((t + bs.length : Nat) : Int))
    (ht : t < 4096) : (s.copy i bs).strVaddrs = update s.strVaddrs i (userStackVbase + t) := by
  show update s.strVaddrs i ((userStackVbase + (s.top - bs.length)) % 2 ^ 32).toNat = _
  congr 1
  unfold userStackVbase
  omega

theorem ArgStack.page_copy (page : Bytes) {t : Nat} {bs : List UInt8}
    (htop : s.top = ((t + bs.length : Nat) : Int)) :
    (s.copy i bs).page page = blit (s.page page) t bs.length fun k => bs.getD k 0 :=
  ArgStack.page_write page (show s.top - bs.length = t by omega) bs

theorem Downward.copy (h : Downward s) (bs : List UInt8) : Downward (s.copy i bs) :=
  have hw := h.write (show s.top = s.top - bs.length + bs.length by omega)
  ⟨hw.top, hw.stores⟩

/-- One more string. -/
theorem Copied.next (h : Copied page argv junk n (i + 1) s) (hroom : argsSize argv i n ≤ 4031) :
    Copied page argv junk n i (s.copy i ((argv i).chars ++ [0])) := by
  have hi := h.le
  have hsize := argsSize_succ argv (show i < n by omega)
  have hlen : ((argv i).chars ++ [0]).length = (argv i).length + 1 := by simp [CStr.length]
  have htop : s.top = ((4095 - argsSize argv i n + ((argv i).chars ++ [0]).length : Nat) :
      Int) := by
    rw [h.top, hlen]
    omega
  have hptrs := ArgStack.copy_strVaddrs (i := i) htop (by omega)
  have hpage := ArgStack.page_copy (i := i) page htop
  rw [hlen] at hpage
  refine ⟨by omega, h.argc, hroom, ?_, h.down.copy _, fun j hj => ?_, fun j hij hj => ?_⟩
  · show s.top - ((argv i).chars ++ [0]).length = _
    omega
  · rw [hptrs, update_of_ne (by omega), h.todo j (by omega)]
  · rw [hptrs, hpage]
    by_cases hji : j = i
    · subst hji
      rw [update_self]
      refine ⟨rfl, ext_getElem (by simp [CStr.length]) fun k hk hk' => ?_⟩
      rw [length_slice] at hk
      simp only [slice, getElem_map, getElem_range]
      rw [blit_add hk, getD_eq_getElem _ _ hk']
    · obtain ⟨hptr, hstr⟩ := h.done j (by omega) hj
      rw [update_of_ne hji]
      refine ⟨hptr, hstr ▸ slice_congr fun k _ => blit_of_notMem (.inr ?_)⟩
      have hle := argsSize_anti argv n (show i + 1 ≤ j by omega)
      omega

/-- **The loop over the strings**: all fit, or the first one that does not is the new `argc`. -/
theorem Copied.pushStrings (h : Copied page argv junk n i s) :
    Copied page argv junk n 0 (AliOS.pushStrings argv i s) ∨
      ∃ k u, Copied page argv junk n (k + 1) u ∧ 4031 < argsSize argv k n ∧
        AliOS.pushStrings argv i s = { u with argc := k } := by
  induction i generalizing s with
  | zero => exact .inl h
  | succ i ih =>
    have hi := h.le
    have hsize := argsSize_succ argv (show i < n by omega)
    have hlen : ((argv i).chars ++ [0]).length = (argv i).length + 1 := by simp [CStr.length]
    rw [pushStrings]
    dsimp only
    split
    · rename_i hlow
      rw [h.top, hlen] at hlow
      exact .inr ⟨i, s, h, by omega, rfl⟩
    · rename_i hlow
      rw [h.top, hlen] at hlow
      exact ih (h.next (by omega))

theorem copied_start (page : Bytes) (argv : Nat → CStr) (junk : Nat → Nat) (n : Nat) :
    Copied page argv junk n n ⟨n, 4095, junk, []⟩ where
  le := Nat.le_refl n
  argc := rfl
  room := by simp [argsSize]
  top := by simp [argsSize]
  down := ⟨Int.le_refl _, fun x hx => absurd hx not_mem_nil⟩
  todo := fun _ _ => rfl
  done := fun j hlo hhi => absurd hhi (by omega)

/-! ## what the program sees -/

/-- An array of `argc` pointers and NULL, each to a copy of its argument inside the page. -/
structure ArgArray (p : Bytes) (arr argc : Nat) (argv : Nat → CStr) : Prop where
  fits : arr + 4 * (argc + 1) ≤ 4096
  null : load32 p (arr + 4 * argc) = 0
  string : ∀ i < argc, ∃ a, load32 p (arr + 4 * i) = userStackVbase + a ∧
    a + ((argv i).length + 1) ≤ 4096 ∧ slice p a ((argv i).length + 1) = (argv i).chars ++ [0]

/-- The contract of `elf_push_args` for a page with these contents before the call. -/
structure ArgsPushed (page : Bytes) (argc : Nat) (argv : Nat → CStr)
    (r : Nat × List (Int × UInt8)) : Prop where
  inPage : ∀ x ∈ r.2, 0 ≤ x.1 ∧ x.1 < 4096
  aligned : r.1 % 4 = 0
  frame : ∃ esp argc' arr, r.1 = userStackVbase + esp ∧ esp + 12 ≤ 4096 ∧
    load32 (putBytes page r.2) esp = 0 ∧ load32 (putBytes page r.2) (esp + 4) = argc' ∧
    load32 (putBytes page r.2) (esp + 8) = userStackVbase + arr ∧ argc' ≤ min argc 15 ∧
    ArgArray (putBytes page r.2) arr argc' argv

/-- The contract for what is left when the strings are there: the frame is in the page, and
every argument that is counted has its address. -/
theorem argsPushed_iff {argc : Nat} (h : Downward s) (htop : 64 ≤ s.top)
    (hargc : s.argc ≤ min argc 15) (hwords : ∀ i < s.argc, s.strVaddrs i < 2 ^ 32) :
    ArgsPushed page argc argv ((pushFrame s).vaddr, (pushFrame s).stores) ↔
      0 ≤ frameTop s ∧ ∀ i < s.argc, ∃ a, s.strVaddrs i = userStackVbase + a ∧
        a + ((argv i).length + 1) ≤ 4096 ∧
        slice ((pushFrame s).page page) a ((argv i).length + 1) = (argv i).chars ++ [0] := by
  obtain ⟨hesp, hdown, b, hlast⟩ := pushFrame_spec h
  have hlt := h.top
  constructor
  · intro hp
    have hpos : 0 ≤ frameTop s := (hp.inPage _ hlast).1
    refine ⟨hpos, fun i hi => ?_⟩
    obtain ⟨e, he⟩ := Int.eq_ofNat_of_zero_le hpos
    obtain ⟨hf, -⟩ := @pushFrame_page s page e h he (by omega) hwords
    obtain ⟨esp, argc', arr, hr, -, -, hcount, harr, -, harray⟩ := hp.frame
    have hlow : e < 4096 := by
      unfold frameTop at he
      omega
    have heq : esp = e := by
      dsimp only [ArgStack.vaddr] at hr
      omega
    subst heq
    rw [show putBytes page (pushFrame s).stores = (pushFrame s).page page from rfl,
      hf.count] at hcount
    rw [show putBytes page (pushFrame s).stores = (pushFrame s).page page from rfl,
      hf.array] at harr
    obtain rfl : arr = esp + 12 := by omega
    subst hcount
    obtain ⟨a, ha, hfit, hstr⟩ := harray.string i hi
    exact ⟨a, (hf.pointer i hi).symm.trans ha, hfit, hstr⟩
  · intro ⟨hpos, hptr⟩
    obtain ⟨e, he⟩ := Int.eq_ofNat_of_zero_le hpos
    obtain ⟨hf, -⟩ := @pushFrame_page s page e h he (by omega) hwords
    have hbound : (e : Int) + 4 * (s.argc + 4) ≤ 4096 ∧ e % 4 = 0 := by
      unfold frameTop at he
      omega
    have hvaddr : (pushFrame s).vaddr = userStackVbase + e := by
      unfold ArgStack.vaddr userStackVbase
      omega
    refine ⟨fun x hx => ?_, ?_, e, s.argc, e + 12, hvaddr, by omega, hf.retaddr, hf.count,
      hf.array, hargc, by omega, hf.null, fun i hi => ?_⟩
    · obtain ⟨hlo, hhi⟩ := hdown.stores x hx
      omega
    · rw [hvaddr]
      unfold userStackVbase
      omega
    · obtain ⟨a, ha, hfit, hstr⟩ := hptr i hi
      exact ⟨a, (hf.pointer i hi).trans ha, hfit, hstr⟩

end

/-- The strings fit and leave room for their pointers and the frame, or the first one alone
does not fit: then no argument is passed. -/
def ArgsFit (argv : Nat → CStr) (n : Nat) : Prop :=
  (argsSize argv 0 n ≤ 4031 ∧ argsSize argv 0 n + 4 * (n + 4) ≤ 4095) ∨
    (argsSize argv 1 n ≤ 4031 ∧ 4031 < argsSize argv 0 n)

/-- All strings have been copied. -/
theorem Copied.argsPushed_iff {page : Bytes} {argc : Nat} {argv : Nat → CStr} {junk : Nat → Nat}
    {s : ArgStack} (h : Copied page argv junk (min argc 15) 0 s) :
    ArgsPushed page argc argv ((pushFrame s).vaddr, (pushFrame s).stores) ↔
      ArgsFit argv (min argc 15) := by
  have hroom := h.room
  have htop := h.top
  have hargc := h.argc
  have hwords : ∀ i < s.argc, s.strVaddrs i < 2 ^ 32 := fun i hi => by
    rw [(h.done i (Nat.zero_le i) (by omega)).1]
    unfold userStackVbase
    omega
  rw [AliOS.argsPushed_iff h.down (by omega) (by omega) hwords]
  have hframe : 0 ≤ frameTop s ↔ argsSize argv 0 (min argc 15) + 4 * (min argc 15 + 4) ≤ 4095 := by
    unfold frameTop
    omega
  rw [hframe]
  constructor
  · rintro ⟨hfit, -⟩
    exact .inl ⟨hroom, hfit⟩
  · rintro (⟨-, hfit⟩ | ⟨-, hover⟩)
    · refine ⟨hfit, fun i hi => ?_⟩
      obtain ⟨e, he⟩ := Int.eq_ofNat_of_zero_le (hframe.mpr hfit)
      obtain ⟨-, hkeep⟩ := @pushFrame_page s page e h.down he (by omega) hwords
      obtain ⟨hptr, hstr⟩ := h.done i (Nat.zero_le i) (by omega)
      have hanti := argsSize_anti argv (min argc 15) (Nat.zero_le i)
      have hsize := argsSize_succ argv (show i < min argc 15 by omega)
      refine ⟨_, hptr, by omega, hstr ▸ slice_congr fun k _ => hkeep _ ?_⟩
      omega
    · omega

/-- One string does not fit: the arguments in front of it are counted, and the array holds for
them what it held before. -/
theorem Copied.argsPushed_cut {page : Bytes} {argc k : Nat} {argv : Nat → CStr} {junk : Nat → Nat}
    {u : ArgStack} (h : Copied page argv junk (min argc 15) (k + 1) u)
    (hjunk : ∀ i < k, junk i < 2 ^ 32) :
    ArgsPushed page argc argv
        ((pushFrame { u with argc := k }).vaddr, (pushFrame { u with argc := k }).stores) ↔
      0 ≤ frameTop { u with argc := k } ∧ ∀ i < k, ∃ a, junk i = userStackVbase + a ∧
        a + ((argv i).length + 1) ≤ 4096 ∧
        slice ((pushFrame { u with argc := k }).page page) a ((argv i).length + 1) =
          (argv i).chars ++ [0] := by
  have hle := h.le
  have htop := h.top
  have hroom := h.room
  have htodo : ∀ i < k, u.strVaddrs i = junk i := fun i hi => h.todo i (by omega)
  rw [AliOS.argsPushed_iff (s := { u with argc := k }) ⟨h.down.top, h.down.stores⟩
    (by show 64 ≤ u.top; omega) (by show k ≤ _; omega) fun i hi => (htodo i hi).symm ▸ hjunk i hi]
  refine and_congr_right fun _ => forall₂_congr fun i hi => ?_
  rw [show ({ u with argc := k } : ArgStack).strVaddrs i = junk i from htodo i hi]

/-- With an array of zeros the contract is met only when the arguments fit. -/
theorem argsFit_of_argsPushed {page : Bytes} {argc : Nat} {argv : Nat → CStr}
    (h : ArgsPushed page argc argv (elfPushArgs argc argv fun _ => 0)) :
    ArgsFit argv (min argc 15) := by
  rw [elfPushArgs_eq] at h
  obtain hall | ⟨k, u, hcut, hover, heq⟩ :=
    (copied_start page argv (fun _ => 0) (min argc 15)).pushStrings
  · exact hall.argsPushed_iff.mp h
  · rw [heq, hcut.argsPushed_cut fun _ _ => by decide] at h
    cases k with
    | zero => exact .inr ⟨hcut.room, hover⟩
    | succ k =>
      obtain ⟨a, ha, -⟩ := h.2 0 (Nat.succ_pos k)
      unfold userStackVbase at ha
      omega

/-- **The arguments of a program**: `elf_push_args` meets its contract, whatever the array
`str_vaddrs` holds before it is filled, exactly when the arguments fit. -/
theorem elfPushArgs_iff (page : Bytes) (argc : Nat) (argv : Nat → CStr) :
    (∀ junk, ArgsPushed page argc argv (elfPushArgs argc argv junk)) ↔
      ArgsFit argv (min argc 15) := by
  constructor
  · intro hp
    exact argsFit_of_argsPushed (hp fun _ => 0)
  · intro hfit junk
    rw [elfPushArgs_eq]
    obtain hall | ⟨k, u, hcut, hover, heq⟩ :=
      (copied_start page argv junk (min argc 15)).pushStrings
    · exact hall.argsPushed_iff.mpr hfit
    · -- the first string that does not fit is the first one there is
      have hk : k = 0 := by
        have hanti := argsSize_anti argv (min argc 15) (Nat.zero_le k)
        obtain ⟨hroom, -⟩ | ⟨hroom, -⟩ := hfit
        · omega
        · refine Nat.eq_zero_of_not_pos fun hpos => ?_
          have hanti' := argsSize_anti argv (min argc 15) (show 1 ≤ k from hpos)
          omega
      subst hk
      rw [heq, hcut.argsPushed_cut fun i hi => absurd hi (Nat.not_lt_zero i)]
      refine ⟨?_, fun i hi => absurd hi (Nat.not_lt_zero i)⟩
      have htop := hcut.top
      have hroom := hcut.room
      unfold frameTop
      dsimp only
      omega

theorem noNul_programName : ∀ c ∈ ([97] : List UInt8), c ≠ 0 := by simp

/-- A program name, and an argument of 4,031 characters. -/
def longArg (i : Nat) : CStr :=
  if i = 0 then ⟨[97], noNul_programName⟩
  else ⟨List.replicate 4031 97, fun c hc => by simp [eq_of_mem_replicate hc]⟩

theorem argsSize_longArg : argsSize longArg 1 2 = 4032 := by
  have hlen : (longArg 1).length = 4031 := length_replicate
  rw [argsSize_succ _ (by decide), hlen]
  rfl

/-- The argument does not fit.  The program is told that it has one argument, and the pointer to
it is what the kernel stack held. -/
theorem elfPushArgs_unset :
    ¬ArgsPushed (fun _ => 0) 2 longArg (elfPushArgs 2 longArg fun _ => 0) := by
  intro h
  have hfit := argsFit_of_argsPushed h
  have hanti : argsSize longArg 1 2 ≤ argsSize longArg 0 2 := argsSize_anti _ _ (Nat.zero_le 1)
  rw [argsSize_longArg] at hanti
  obtain ⟨hroom, -⟩ | ⟨hroom, -⟩ := hfit
  · rw [show min 2 15 = 2 from rfl] at hroom
    omega
  · rw [show min 2 15 = 2 from rfl, argsSize_longArg] at hroom
    omega

end AliOS
