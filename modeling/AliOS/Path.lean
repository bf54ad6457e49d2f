import AliOS.Lib.CStr

/-!
# AliOS.Path

`path_resolve` (`kernel/path.h`): the absolute path of `input` relative to `base`.  The
components of a path are kept on a stack of 16 strings of at most 31 characters, and are
joined with slashes into a buffer of 64 bytes, which only the characters of a component
are checked against.
-/

namespace AliOS

open Lib List

/-- The character '/'. -/
def slash : UInt8 := 47

/-- The character '.'. -/
def dot : UInt8 := 46

/-- The string "/". -/
def rootPath : CStr := ⟨[slash], by simp [slash]⟩

/-- `PUSH`. -/
def pushComp (comp : List (List UInt8)) (c : List UInt8) : List (List UInt8) :=
  if comp.length < 16 then comp ++ [c.take 31] else comp

/-- What `WALK` does with a component; between two slashes there is none. -/
def walkComp (comp : List (List UInt8)) (c : List UInt8) : List (List UInt8) :=
  if c = [] then comp
  else if c = [dot] then comp
  else if c = [dot, dot] then comp.dropLast
  else pushComp comp c

/-- `WALK`; `c` is what has been read of the next component. -/
def walkPath (comp : List (List UInt8)) (c : List UInt8) : List UInt8 → List (List UInt8)
  | [] => walkComp comp c
  | x :: s => if x = slash then walkPath (walkComp comp c) [] s else walkPath comp (c ++ [x]) s

/-- One iteration of the loop that fills `out`. -/
def joinComp (out c : List UInt8) : List UInt8 :=
  let out := out ++ [slash]
  out ++ c.take (63 - out.length)

/-- The component stack of `path_resolve`. -/
def resolveComps (base input : CStr) : List (List UInt8) :=
  if input.get 0 = slash then walkPath [] [] input.chars
  else walkPath (walkPath [] [] base.chars) [] input.chars

/-! ## no terminator inside -/

/-- No component contains NUL. -/
def NulFree (comp : List (List UInt8)) : Prop := ∀ c ∈ comp, ∀ x ∈ c, x ≠ 0

theorem NulFree.walkComp {comp : List (List UInt8)} {c : List UInt8} (h : NulFree comp)
    (hc : ∀ x ∈ c, x ≠ 0) : NulFree (walkComp comp c) := by
  unfold AliOS.walkComp pushComp
  split
  · exact h
  · split
    · exact h
    · split
      · exact fun d hd => h d (dropLast_subset comp hd)
      · split
        · intro d hd
          rcases mem_append.mp hd with hd | hd
          · exact h d hd
          · obtain rfl := mem_singleton.mp hd
            exact fun x hx => hc x (mem_of_mem_take hx)
        · exact h

theorem NulFree.walkPath {comp : List (List UInt8)} {c s : List UInt8} (h : NulFree comp)
    (hc : ∀ x ∈ c, x ≠ 0) (hs : ∀ x ∈ s, x ≠ 0) : NulFree (walkPath comp c s) := by
  induction s generalizing comp c with
  | nil => exact h.walkComp hc
  | cons x s ih =>
    obtain ⟨hx, hs⟩ := forall_mem_cons.mp hs
    unfold AliOS.walkPath
    split
    · exact ih (h.walkComp hc) (by simp) hs
    · refine ih h (fun y hy => ?_) hs
      rcases mem_append.mp hy with hy | hy
      · exact hc y hy
      · rwa [mem_singleton.mp hy]

theorem nulFree_resolveComps (base input : CStr) : NulFree (resolveComps base input) := by
  have hnil : NulFree [] := by simp [NulFree]
  unfold resolveComps
  split
  · exact hnil.walkPath (by simp) input.noNul
  · exact (hnil.walkPath (by simp) base.noNul).walkPath (by simp) input.noNul

theorem foldl_joinComp_noNul {comp : List (List UInt8)} (h : NulFree comp) {out : List UInt8}
    (hout : ∀ x ∈ out, x ≠ 0) : ∀ x ∈ comp.foldl joinComp out, x ≠ 0 := by
  induction comp generalizing out with
  | nil => exact hout
  | cons c comp ih =>
    obtain ⟨hc, hcomp⟩ := forall_mem_cons.mp h
    refine ih hcomp fun x hx => ?_
    simp only [joinComp, mem_append, mem_singleton] at hx
    rcases hx with (hx | rfl) | hx
    · exact hout x hx
    · simp [slash]
    · exact hc x (mem_of_mem_take hx)

/-- The string in `out`. -/
def pathResolve (base input : CStr) : CStr :=
  if resolveComps base input = [] then rootPath
  else ⟨(resolveComps base input).foldl joinComp [],
    foldl_joinComp_noNul (nulFree_resolveComps base input) (by simp)⟩

theorem chars_pathResolve (base input : CStr) : (pathResolve base input).chars =
    if resolveComps base input = [] then [slash] else (resolveComps base input).foldl joinComp
      [] := by
  unfold pathResolve
  split <;> rfl

/-! ## path_parent and path_basename -/

/-- `path_parent`: what stands before the last slash.  The string has to fit `out`, 64 bytes with
its terminator: there is no check, and the callers pass names of directory entries. -/
def pathParent (path : CStr) : CStr :=
  let last := (List.range' 0 path.length).foldl
    (fun last i => if path.get i = slash then i else last) 0
  if last = 0 then rootPath else path.take last

/-- `path_basename`: what stands behind the last slash. -/
def pathBasename (path : CStr) : CStr :=
  path.drop ((List.range' 0 path.length).foldl
    (fun last i => if path.get i = slash then i + 1 else last) 0)

end AliOS
