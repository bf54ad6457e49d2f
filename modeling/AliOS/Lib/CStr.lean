/-!
# AliOS.Lib.CStr

NUL-terminated strings: the characters before the terminator, none of which
is NUL.  `CStr.get` reads the memory behind a `const char *`, the terminator
included.  This module depends only on the Lean 4 core library.
-/

namespace AliOS.Lib

open List

/-- A NUL-terminated string. -/
structure CStr where
  chars : List UInt8
  noNul : ∀ c ∈ chars, c ≠ 0
deriving DecidableEq

/-- `strlen`. -/
def CStr.length (s : CStr) : Nat := s.chars.length

/-- `s[i]`, for `i` up to and including the terminator. -/
def CStr.get (s : CStr) (i : Nat) : UInt8 := s.chars.getD i 0

/-- The first `n` characters: `strncpy` into a buffer of `n + 1` bytes. -/
def CStr.take (s : CStr) (n : Nat) : CStr :=
  ⟨s.chars.take n, fun c hc => s.noNul c (mem_of_mem_take hc)⟩

/-- The string behind its first `n` characters. -/
def CStr.drop (s : CStr) (n : Nat) : CStr :=
  ⟨s.chars.drop n, fun c hc => s.noNul c (mem_of_mem_drop hc)⟩

/-- The string in a buffer: what stands before the first terminator. -/
def CStr.ofBytes (bs : List UInt8) : CStr :=
  ⟨bs.takeWhile (· != 0), fun c hc => by simpa using List.all_eq_true.mp all_takeWhile c hc⟩

/-- A string of ASCII characters. -/
def CStr.ascii (s : String) : CStr := .ofBytes (s.toList.map fun c => UInt8.ofNat c.toNat)

/-- The strings before and behind the first `c`: what is left when the place
`strchr` finds is overwritten with a terminator. -/
def CStr.cut (s : CStr) (c : UInt8) : Option (CStr × CStr) :=
  if c ∈ s.chars then
    some (⟨s.chars.takeWhile (· != c), fun d hd => s.noNul d (takeWhile_subset _ hd)⟩,
      ⟨(s.chars.dropWhile (· != c)).tail,
        fun d hd => s.noNul d (dropWhile_subset _ (mem_of_mem_tail hd))⟩)
  else none

theorem CStr.get_eq_getElem {s : CStr} {i : Nat} (h : i < s.chars.length) :
    s.get i = s.chars[i] := by
  simp [CStr.get, List.getD, List.getElem?_eq_getElem h]

theorem CStr.get_of_lt {s : CStr} {i : Nat} (h : i < s.length) : s.get i ≠ 0 := by
  rw [CStr.get_eq_getElem h]
  exact s.noNul _ (getElem_mem h)

theorem CStr.get_of_le {s : CStr} {i : Nat} (h : s.length ≤ i) : s.get i = 0 := by
  simp [CStr.get, List.getD, List.getElem?_eq_none h]

/-- A string is determined by its characters. -/
theorem CStr.ext {s t : CStr} (h : s.chars = t.chars) : s = t := by
  cases s; cases t; cases h; rfl

/-- A buffer without a terminator is taken as it is. -/
theorem CStr.chars_ofBytes {bs : List UInt8} (h : ∀ c ∈ bs, c ≠ 0) :
    (CStr.ofBytes bs).chars = bs := by
  unfold CStr.ofBytes
  induction bs with
  | nil => rfl
  | cons c bs ih =>
    obtain ⟨hc, hbs⟩ := forall_mem_cons.mp h
    simpa [hc] using ih hbs

theorem CStr.ofBytes_chars (s : CStr) : CStr.ofBytes s.chars = s :=
  CStr.ext (CStr.chars_ofBytes s.noNul)

theorem CStr.take_of_length_le {s : CStr} {n : Nat} (h : s.length ≤ n) : s.take n = s :=
  CStr.ext (List.take_of_length_le h)

end AliOS.Lib
