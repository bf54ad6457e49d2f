import Mathlib.Data.List.GetD
import AliOS.Path.Normal

/-!
# AliOS.Path.Stores

`path_resolve` with its arrays: the component stack `comp[16][32]` and the buffer `out` of
the caller, which has 64 bytes.  `touched` and `stored` record the indices that are used;
the code does not look at them.

The stack is safe: `PUSH` is guarded, and no component has more than 31 characters.  The
buffer is not.  The characters of a component are checked against the end of the buffer,
but the slash before it is not, so each component that begins at index 63 or later adds
another byte behind the end.
-/

namespace AliOS

open Lib Function List

/-! ## the arrays -/

/-- `comp` and `nc`. -/
structure CompStack where
  comp : Nat → Nat → UInt8
  nc : Nat
  touched : List (Nat × Nat)

/-- `out` and `oi`. -/
structure OutBuf where
  buf : Nat → UInt8
  oi : Nat
  stored : List Nat

namespace CompStack

/-- `comp[i][j] = v`. -/
def put (m : CompStack) (i j : Nat) (v : UInt8) : CompStack :=
  { m with comp := update m.comp i (update (m.comp i) j v), touched := (i, j) :: m.touched }

/-- `comp[i][j]` is read. -/
def touch (m : CompStack) (i j : Nat) : CompStack := { m with touched := (i, j) :: m.touched }

/-- The loop of `PUSH` from `_i = i` on, and the terminator behind what it has copied. -/
def fill (m : CompStack) (i : Nat) : List UInt8 → CompStack
  | [] => m.put m.nc i 0
  | x :: c => if i < 31 then fill (m.put m.nc i x) (i + 1) c else m.put m.nc i 0

/-- `PUSH`. -/
def push (m : CompStack) (c : List UInt8) : CompStack :=
  if m.nc < 16 then { m.fill 0 c with nc := m.nc + 1 } else m

/-- What `WALK` does with a component. -/
def walkComp (m : CompStack) (c : List UInt8) : CompStack :=
  if c = [] then m
  else if c = [dot] then m
  else if c = [dot, dot] then (if 0 < m.nc then { m with nc := m.nc - 1 } else m)
  else m.push c

/-- `WALK`; `c` is what has been read of the next component. -/
def walk (m : CompStack) (c : List UInt8) : List UInt8 → CompStack
  | [] => m.walkComp c
  | x :: s => if x = slash then walk (m.walkComp c) [] s else walk m (c ++ [x]) s

end CompStack

/-- `out[oi++] = v`. -/
def OutBuf.put (o : OutBuf) (v : UInt8) : OutBuf :=
  ⟨update o.buf o.oi v, o.oi + 1, o.oi :: o.stored⟩

/-- `out[oi] = '\0'`. -/
def OutBuf.terminate (o : OutBuf) : OutBuf :=
  { o with buf := update o.buf o.oi 0, stored := o.oi :: o.stored }

/-- `for (; comp[i][j] && oi < 63; j++) out[oi++] = comp[i][j];` where `room` is what `oi`
lacks to 63. -/
def copyComp (i : Nat) : Nat → Nat → CompStack × OutBuf → CompStack × OutBuf
  | 0, j, (m, o) => (m.touch i j, o)
  | room + 1, j, (m, o) =>
    if m.comp i j = 0 then (m.touch i j, o)
    else copyComp i room (j + 1) (m.touch i j, o.put (m.comp i j))

/-- One iteration of the loop that fills `out`. -/
def writeComp (r : CompStack × OutBuf) (i : Nat) : CompStack × OutBuf :=
  let o := r.2.put slash
  copyComp i (63 - o.oi) 0 (r.1, o)

/-- The component stack when the strings have been walked. -/
def walked (base input : CStr) (comp₀ : Nat → Nat → UInt8) : CompStack :=
  let m : CompStack := ⟨comp₀, 0, []⟩
  if input.get 0 = slash then m.walk [] input.chars else (m.walk [] base.chars).walk [] input.chars

/-- `path_resolve` with the component stack and the buffer as they are found. -/
def pathResolveStores (base input : CStr) (comp₀ : Nat → Nat → UInt8) (buf₀ : Nat → UInt8) :
    CompStack × OutBuf :=
  let m := walked base input comp₀
  let o : OutBuf := ⟨buf₀, 0, []⟩
  if m.nc = 0 then (m, (o.put slash).terminate)
  else
    let r := (List.range m.nc).foldl writeComp (m, o)
    (r.1, r.2.terminate)

/-! ## the stack -/

/-- The first rows of the array hold the components, each with its terminator, and no index
so far was out of range. -/
structure CompStack.Holds (m : CompStack) (comp : List (List UInt8)) : Prop where
  count : m.nc = comp.length
  rows : ∀ i c, comp[i]? = some c → ∀ j ≤ c.length, m.comp i j = c.getD j 0
  inside : ∀ p ∈ m.touched, p.1 < 16 ∧ p.2 < 32

namespace CompStack

variable {m : CompStack} {comp : List (List UInt8)} {c s : List UInt8}

theorem comp_put (m : CompStack) (i j : Nat) (v : UInt8) (a b : Nat) :
    (m.put i j v).comp a b = if a = i ∧ b = j then v else m.comp a b := by
  unfold put
  by_cases ha : a = i
  · subst ha
    by_cases hb : b = j
    · simp [hb]
    · simp [hb]
  · simp [ha]

/-- In `m'` the row `nc` holds the string `l` from index `k` on; the rest is as in `m`. -/
structure Filled (m : CompStack) (k : Nat) (l : List UInt8) (m' : CompStack) : Prop where
  nc : m'.nc = m.nc
  others : ∀ a, a ≠ m.nc → m'.comp a = m.comp a
  before : ∀ j < k, m'.comp m.nc j = m.comp m.nc j
  row : ∀ j ≤ l.length, m'.comp m.nc (k + j) = l.getD j 0
  touched : ∀ p ∈ m'.touched, p ∈ m.touched ∨ p.1 = m.nc ∧ p.2 < 32

theorem filled_stop {k : Nat} (hk : k ≤ 31) : Filled m k [] (m.put m.nc k 0) where
  nc := rfl
  others := fun a ha => update_of_ne ha _ _
  before := fun j hj => by
    rw [comp_put, if_neg]
    omega
  row := fun j hj => by
    obtain rfl : j = 0 := Nat.le_zero.mp hj
    rw [comp_put, if_pos ⟨rfl, rfl⟩]
    rfl
  touched := fun p hp => by
    rcases mem_cons.mp hp with rfl | hp
    · exact .inr ⟨rfl, by omega⟩
    · exact .inl hp

theorem Filled.cons {k : Nat} {x : UInt8} {l : List UInt8} {m' : CompStack} (hk : k < 31)
    (h : Filled (m.put m.nc k x) (k + 1) l m') : Filled m k (x :: l) m' where
  nc := h.nc
  others := fun a ha => (h.others a ha).trans (update_of_ne ha _ _)
  before := fun j hj => by
    have hbefore := h.before j (by omega)
    rw [comp_put, if_neg (by omega)] at hbefore
    exact hbefore
  row := fun j hj => by
    cases j with
    | zero =>
      have hbefore := h.before k (by omega)
      rw [comp_put, if_pos ⟨rfl, rfl⟩] at hbefore
      exact hbefore
    | succ j =>
      have hrow := h.row j (by simpa using hj)
      rw [Nat.add_right_comm] at hrow
      exact hrow
  touched := fun p hp => by
    rcases h.touched p hp with hp | hp
    · rcases mem_cons.mp hp with rfl | hp
      · exact .inr ⟨rfl, by omega⟩
      · exact .inl hp
    · exact .inr hp

/-- `PUSH` copies at most 31 characters into the next row and touches no other. -/
theorem filled_fill (k : Nat) (hk : k ≤ 31) : Filled m k (c.take (31 - k)) (m.fill k c) := by
  induction c generalizing m k with
  | nil =>
    rw [take_nil]
    exact filled_stop hk
  | cons x c ih =>
    unfold fill
    split
    · rename_i hlt
      have htake : (x :: c).take (31 - k) = x :: c.take (31 - (k + 1)) := by
        rw [show 31 - k = 31 - (k + 1) + 1 by omega, take_succ_cons]
      rw [htake]
      exact (ih (k + 1) (by omega)).cons hlt
    · obtain rfl : k = 31 := by omega
      exact filled_stop hk

theorem Holds.push (h : Holds m comp) : Holds (m.push c) (pushComp comp c) := by
  unfold CompStack.push pushComp
  rw [h.count]
  split
  · rename_i hlt
    have hf : Filled m 0 (c.take 31) (m.fill 0 c) := filled_fill 0 (by omega)
    refine ⟨by simp, fun i d hd j hj => ?_, fun p hp => ?_⟩
    · rw [List.getElem?_append] at hd
      split at hd
      · have hrow := congrFun (hf.others i (by rw [h.count]; omega)) j
        exact hrow.trans (h.rows i d hd j hj)
      · obtain ⟨hi, rfl⟩ : i - comp.length = 0 ∧ c.take 31 = d := by
          simpa [List.getElem?_singleton] using hd
        have hrow := hf.row j hj
        rw [Nat.zero_add, h.count] at hrow
        rw [show i = comp.length by omega]
        exact hrow
    · rcases hf.touched p hp with hp | ⟨hp, hlt'⟩
      · exact h.inside p hp
      · exact ⟨by rw [hp, h.count]; exact hlt, hlt'⟩
  · exact h

theorem Holds.walkComp (h : Holds m comp) : Holds (m.walkComp c) (AliOS.walkComp comp c) := by
  unfold CompStack.walkComp AliOS.walkComp
  split
  · exact h
  · split
    · exact h
    · split
      · split
        · refine ⟨by simp [h.count], fun i d hd j hj => ?_, h.inside⟩
          rw [dropLast_eq_take, List.getElem?_take] at hd
          split at hd
          · exact h.rows i d hd j hj
          · exact nomatch hd
        · rename_i hnc
          have hnil : comp = [] := length_eq_zero_iff.mp (by rw [h.count] at hnc; omega)
          rw [hnil] at h ⊢
          exact h
      · exact h.push

theorem Holds.walk (h : Holds m comp) : Holds (m.walk c s) (walkPath comp c s) := by
  induction s generalizing m comp c with
  | nil => exact h.walkComp
  | cons x s ih =>
    unfold CompStack.walk walkPath
    split
    · exact ih h.walkComp
    · exact ih h

theorem Holds.touch (h : Holds m comp) {i j : Nat} (hi : i < 16) (hj : j < 32) :
    Holds (m.touch i j) comp where
  count := h.count
  rows := h.rows
  inside := forall_mem_cons.mpr ⟨⟨hi, hj⟩, h.inside⟩

end CompStack

/-! ## the buffer -/

/-- Exactly the first bytes of the buffer have been stored, and they are `l`. -/
structure OutBuf.Holds (o : OutBuf) (l : List UInt8) : Prop where
  length : o.oi = l.length
  bytes : ∀ k x, l[k]? = some x → o.buf k = x
  stored : ∀ k, k ∈ o.stored ↔ k < l.length

section

variable {m : CompStack} {o : OutBuf} {comp : List (List UInt8)} {c l : List UInt8}

theorem OutBuf.Holds.put (h : Holds o l) (v : UInt8) : Holds (o.put v) (l ++ [v]) := by
  refine ⟨by simp [OutBuf.put, h.length], fun k x hx => ?_, fun k => ?_⟩
  · rw [List.getElem?_append] at hx
    split at hx
    · have hne : k ≠ o.oi := by rw [h.length]; omega
      exact (update_of_ne hne _ _).trans (h.bytes k x hx)
    · obtain ⟨hk, rfl⟩ : k - l.length = 0 ∧ v = x := by simpa [List.getElem?_singleton] using hx
      obtain rfl : k = o.oi := by rw [h.length]; omega
      exact update_self _ _ _
  · simp only [OutBuf.put, mem_cons, h.stored, h.length, length_append, length_singleton]
    omega

/-- The inner loop copies what there is room for, and stops at the terminator. -/
theorem copyComp_spec {i : Nat} (hi : i < 16) (hc : comp[i]? = some c) (hlen : c.length ≤ 31)
    (hnul : ∀ x ∈ c, x ≠ 0)
    (room j : Nat) (hj : j ≤ c.length) (hm : m.Holds comp) (ho : o.Holds l) :
    (copyComp i room j (m, o)).1.Holds comp ∧
    (copyComp i room j (m, o)).2.Holds (l ++ (c.drop j).take room) := by
  induction room generalizing j m o l with
  | zero =>
    refine ⟨hm.touch hi (by omega), ?_⟩
    rw [take_zero, append_nil]
    exact ho
  | succ room ih =>
    have htouch := hm.touch hi (j := j) (by omega)
    have hrow := hm.rows i c hc j hj
    unfold copyComp
    split
    · rename_i h0
      have hend : j = c.length := by
        by_contra hne
        have hlt : j < c.length := by omega
        rw [h0, getD_eq_getElem _ _ hlt] at hrow
        exact hnul _ (getElem_mem hlt) hrow.symm
      refine ⟨htouch, ?_⟩
      rw [hend, drop_length]
      simpa using ho
    · rename_i h0
      have hlt : j < c.length := by
        by_contra hge
        exact h0 (by rw [hrow, getD_eq_default _ _ (by omega)])
      have hnext := ih (j + 1) hlt htouch (ho.put (m.comp i j))
      rw [hrow, getD_eq_getElem _ _ hlt] at hnext ⊢
      rw [drop_eq_getElem_cons hlt, take_succ_cons]
      simpa using hnext

theorem writeComp_spec {i : Nat} (hi : i < 16) (hc : comp[i]? = some c) (hlen : c.length ≤ 31)
    (hnul : ∀ x ∈ c, x ≠ 0) (hm : m.Holds comp) (ho : o.Holds l) :
    (writeComp (m, o) i).1.Holds comp ∧ (writeComp (m, o) i).2.Holds (joinComp l c) := by
  have hslash := ho.put slash
  have hcopy := copyComp_spec hi hc hlen hnul (63 - (o.put slash).oi) 0 (Nat.zero_le _) hm hslash
  rw [drop_zero, hslash.length] at hcopy
  unfold writeComp joinComp
  dsimp only
  rw [hslash.length]
  exact hcopy

/-- The loop over the components writes the joined path. -/
theorem foldl_writeComp_spec (hshort : comp.length ≤ 16 ∧ ∀ c ∈ comp, c.length ≤ 31)
    (hnul : NulFree comp) (hm : m.Holds comp) (ho : o.Holds []) {n : Nat} (hn : n ≤ comp.length) :
    ((List.range n).foldl writeComp (m, o)).1.Holds comp ∧
    ((List.range n).foldl writeComp (m, o)).2.Holds ((comp.take n).foldl joinComp []) := by
  induction n with
  | zero => exact ⟨hm, by simpa using ho⟩
  | succ n ih =>
    obtain ⟨hm', ho'⟩ := ih (by omega)
    have hlt : n < comp.length := hn
    have hc := List.getElem?_eq_getElem hlt
    have hmem := getElem_mem hlt
    rw [range_succ, foldl_append, foldl_cons, foldl_nil, take_succ_eq_append_getElem hlt,
      foldl_append, foldl_cons, foldl_nil]
    exact writeComp_spec (by omega) hc (hshort.2 _ hmem) (hnul _ hmem) hm' ho'

/-- What is in the buffer once the terminator has been stored. -/
theorem OutBuf.Holds.terminate (h : Holds o l) :
    (∀ k ≤ l.length, o.terminate.buf k = l.getD k 0) ∧ ∀ k, k ∈ o.terminate.stored ↔
      k ≤ l.length := by
  refine ⟨fun k hk => ?_, fun k => ?_⟩
  · by_cases heq : k = o.oi
    · rw [getD_eq_default _ _ (by rw [heq, h.length])]
      subst heq
      exact update_self _ _ _
    · have hlt : k < l.length := by
        rw [h.length] at heq
        omega
      rw [getD_eq_getElem _ _ hlt]
      exact (update_of_ne heq _ _).trans (h.bytes k _ (List.getElem?_eq_getElem hlt))
  · simp only [OutBuf.terminate, mem_cons, h.stored, h.length]
    omega

end

theorem holds_walked (base input : CStr) (comp₀ : Nat → Nat → UInt8) :
    (walked base input comp₀).Holds (resolveComps base input) := by
  have hempty : CompStack.Holds ⟨comp₀, 0, []⟩ [] := ⟨rfl, by simp, by simp⟩
  unfold walked resolveComps
  split
  · exact hempty.walk
  · exact hempty.walk.walk

/-- What is in the arrays when `path_resolve` returns. -/
theorem pathResolveStores_spec (base input : CStr) (comp₀ : Nat → Nat → UInt8)
    (buf₀ : Nat → UInt8) :
    (∀ p ∈ (pathResolveStores base input comp₀ buf₀).1.touched, p.1 < 16 ∧ p.2 < 32) ∧
    (∀ k ≤ (pathResolve base input).length,
      (pathResolveStores base input comp₀ buf₀).2.buf k = (pathResolve base input).get k) ∧
    ∀ k, k ∈ (pathResolveStores base input comp₀ buf₀).2.stored ↔
      k ≤ (pathResolve base input).length := by
  have hm := holds_walked base input comp₀
  have ho : OutBuf.Holds ⟨buf₀, 0, []⟩ [] := ⟨rfl, by simp, by simp⟩
  simp only [pathResolveStores, CStr.length, CStr.get, chars_pathResolve, hm.count,
    length_eq_zero_iff]
  split
  · exact ⟨hm.inside, (ho.put slash).terminate⟩
  · obtain ⟨hm', ho'⟩ := foldl_writeComp_spec (short_resolveComps base input)
      (nulFree_resolveComps base input) hm ho
      le_rfl
    rw [take_length] at ho'
    exact ⟨hm'.inside, ho'.terminate⟩

/-! ## the end of the buffer -/

/-- The length of the result passes 63 with the slash of the last component, or before. -/
theorem length_foldl_joinComp_le {comp : List (List UInt8)} (hne : comp ≠ []) (out : List UInt8) :
    (comp.foldl joinComp out).length ≤ 63 ↔ out.length + (joined comp.dropLast).length ≤ 62 := by
  induction comp generalizing out with
  | nil => exact absurd rfl hne
  | cons c comp ih =>
    have hstep : (joinComp out c).length = out.length + 1 + min (63 - (out.length + 1))
        c.length := by
      simp [joinComp]
      omega
    rw [foldl_cons]
    cases comp with
    | nil =>
      simp [joined]
      omega
    | cons d comp =>
      rw [ih (by simp), hstep]
      simp [joined]
      omega

/-- Every index into `out` is at most 63, every index into the component stack is in range,
and `out` holds a string with its terminator. -/
structure StaysInside (r : CompStack × OutBuf) (s : CStr) : Prop where
  out : ∀ k ∈ r.2.stored, k ≤ 63
  stack : ∀ p ∈ r.1.touched, p.1 < 16 ∧ p.2 < 32
  terminated : ∀ k ≤ s.length, r.2.buf k = s.get k

/-- **When `path_resolve` stays in its buffer.**  Its stores to `out` and its accesses to the
component stack stay inside, and the result is terminated, iff no component is left or
those before the last one leave room for another slash: with their own slashes they have
at most 62 characters. -/
theorem pathResolve_inside_iff (base input : CStr) (comp₀ : Nat → Nat → UInt8)
    (buf₀ : Nat → UInt8) :
    StaysInside (pathResolveStores base input comp₀ buf₀) (pathResolve base input) ↔
      (joined ((pieces base input).foldl walkComp []).dropLast).length ≤ 62 := by
  obtain ⟨hstack, hbytes, hstored⟩ := pathResolveStores_spec base input comp₀ buf₀
  have hlen : (pathResolve base input).length ≤ 63 ↔
      (joined ((pieces base input).foldl walkComp []).dropLast).length ≤ 62 := by
    rw [← resolveComps_eq, CStr.length, chars_pathResolve]
    split
    · rename_i hnil
      simp [hnil, joined]
    · rename_i hne
      simpa using length_foldl_joinComp_le hne []
  rw [← hlen]
  constructor
  · intro h
    exact h.out _ ((hstored _).mpr le_rfl)
  · intro h
    exact ⟨fun k hk => ((hstored k).mp hk).trans h, hstack, hbytes⟩

/-- Two components of 31 characters, and two more. -/
def longPath : CStr := .ascii "/aaaaaaaaaaaaaaaaaaaaaaaaaaaaaaa/aaaaaaaaaaaaaaaaaaaaaaaaaaaaaaa/b/c"

/-- The slashes of the last two components overwrite what lies behind `out`. -/
theorem pathResolve_not_inside :
    64 ∈ (pathResolveStores (.ascii "/") longPath (fun _ _ => 0) fun _ => 0).2.stored ∧
    ¬StaysInside (pathResolveStores (.ascii "/") longPath (fun _ _ => 0) fun _ => 0)
      (pathResolve (.ascii "/") longPath) := by
  have hmem : 64 ∈ (pathResolveStores (.ascii "/") longPath (fun _ _ => 0) fun _ =>
      0).2.stored := by decide +kernel
  exact ⟨hmem, fun h => absurd (h.out 64 hmem) (by decide)⟩

end AliOS
