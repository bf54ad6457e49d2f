import AliOS.Path

/-!
# AliOS.Path.Canonical

Canonical paths, and what `path_resolve` has to do with them.  Every component it keeps is
neither empty nor one of the special names, and contains no slash.  As long as the result
has room in its buffer the components stand in it whole, each behind one slash: then the
result is canonical or the root.
-/

namespace AliOS

open Lib List

/-! ## canonical paths -/

/-- A component that stands for a file or directory. -/
structure Component (c : List UInt8) : Prop where
  nonempty : c ≠ []
  notDot : c ≠ [dot]
  notDotDot : c ≠ [dot, dot]
  noSlash : slash ∉ c

/-- A canonical absolute path, other than the root. -/
structure Canonical (p : List UInt8) : Prop where
  absolute : p.head? = some slash
  components : ∀ c ∈ p.tail.splitOn slash, c ≠ [] ∧ c ≠ [dot] ∧ c ≠ [dot, dot]
  noTrailing : p.getLast? ≠ some slash
  notRoot : p ≠ rootPath.chars

/-- The components, each behind a slash. -/
def joined (comp : List (List UInt8)) : List UInt8 := comp.flatMap fun c => slash :: c

theorem joined_eq {comp : List (List UInt8)} (h : comp ≠ []) :
    joined comp = slash :: [slash].intercalate comp := by
  induction comp with
  | nil => exact absurd rfl h
  | cons c comp ih =>
    cases comp with
    | nil => simp [joined, List.intercalate]
    | cons d comp =>
      have htail := ih (by simp)
      simp only [joined, flatMap_cons] at htail ⊢
      rw [htail]
      simp [List.intercalate]

theorem canonical_joined {comp : List (List UInt8)} (h : comp ≠ []) (hc : ∀ c ∈ comp, Component c) :
    Canonical (joined comp) := by
  have hsplit : (joined comp).tail.splitOn slash = comp := by
    rw [joined_eq h]
    exact splitOn_intercalate slash (fun c hmem => (hc c hmem).noSlash) h
  have hlast : (joined comp).getLast? ≠ some slash := by
    obtain ⟨init, c, rfl⟩ := eq_nil_or_concat comp |>.resolve_left h
    have hcomp := hc c (by simp)
    intro hget
    refine hcomp.noSlash (List.mem_of_getLast? (l := c) ?_)
    cases c with
    | nil => exact absurd rfl hcomp.nonempty
    | cons x c => simpa [joined, List.getLast?_append, List.getLast?_cons_cons] using hget
  refine ⟨by rw [joined_eq h]; rfl, fun c hmem => ?_, hlast, fun hroot => ?_⟩
  · rw [hsplit] at hmem
    exact ⟨(hc c hmem).nonempty, (hc c hmem).notDot, (hc c hmem).notDotDot⟩
  · exact hlast (by rw [hroot]; rfl)

/-! ## the components of path_resolve -/

/-- A component on the stack is cut to 31 characters, so no special name comes out. -/
theorem Component.take {c : List UInt8} (h : Component c) : Component (c.take 31) := by
  by_cases hlen : c.length ≤ 31
  · rwa [List.take_of_length_le hlen]
  · have htake : (c.take 31).length = 31 := by rw [length_take]; omega
    have hne : ∀ d : List UInt8, d.length < 31 → c.take 31 ≠ d := by
      rintro d hd rfl
      omega
    exact ⟨hne _ (by decide), hne _ (by decide), hne _ (by decide),
      fun hmem => h.noSlash (mem_of_mem_take hmem)⟩

section

variable {comp : List (List UInt8)} {c s : List UInt8}

theorem component_walkComp (h : ∀ d ∈ comp, Component d) (hc : slash ∉ c) :
    ∀ d ∈ walkComp comp c, Component d := by
  unfold walkComp pushComp
  split
  · exact h
  · split
    · exact h
    · split
      · exact fun d hd => h d (dropLast_subset comp hd)
      · split
        · rename_i hempty hdot hdots _
          intro d hd
          rcases mem_append.mp hd with hd | hd
          · exact h d hd
          · obtain rfl := mem_singleton.mp hd
            exact Component.take ⟨hempty, hdot, hdots, hc⟩
        · exact h

theorem component_walkPath (h : ∀ d ∈ comp, Component d) (hc : slash ∉ c) :
    ∀ d ∈ walkPath comp c s, Component d := by
  induction s generalizing comp c with
  | nil => exact component_walkComp h hc
  | cons x s ih =>
    unfold walkPath
    split
    · exact ih (component_walkComp h hc) (by simp)
    · rename_i hx
      exact ih h (by simpa [hc] using Ne.symm hx)

end

theorem component_resolveComps (base input : CStr) :
    ∀ c ∈ resolveComps base input, Component c := by
  unfold resolveComps
  split
  · exact component_walkPath (by simp) (by simp)
  · exact component_walkPath (component_walkPath (by simp) (by simp)) (by simp)

/-! ## the buffer -/

theorem length_le_foldl_joinComp (comp : List (List UInt8)) (out : List UInt8) :
    out.length ≤ (comp.foldl joinComp out).length := by
  induction comp generalizing out with
  | nil => exact Nat.le_refl _
  | cons c comp ih =>
    have hstep : out.length ≤ (joinComp out c).length := by simp [joinComp]
    exact Nat.le_trans hstep (ih (joinComp out c))

/-- With less than 63 characters in the end, no component has been cut. -/
theorem foldl_joinComp_eq {comp : List (List UInt8)} {out : List UInt8}
    (h : (comp.foldl joinComp out).length < 63) : comp.foldl joinComp out = out ++ joined comp := by
  induction comp generalizing out with
  | nil => simp [joined]
  | cons c comp ih =>
    have hshort : (joinComp out c).length < 63 :=
      Nat.lt_of_le_of_lt (length_le_foldl_joinComp comp _) h
    have hwhole : joinComp out c = out ++ slash :: c := by
      have hc : c.length ≤ 63 - (out ++ [slash]).length := by
        simp only [joinComp, length_append, length_take] at hshort ⊢
        omega
      simp only [joinComp, List.take_of_length_le hc, append_assoc, singleton_append]
    rw [foldl_cons, ih h, hwhole]
    simp [joined]

/-- A result of `path_resolve` that leaves room in the buffer is canonical, or the root. -/
theorem canonical_pathResolve {base input : CStr} (hne : pathResolve base input ≠ rootPath)
    (hlen : (pathResolve base input).length < 63) : Canonical (pathResolve base input).chars := by
  unfold pathResolve at hne hlen ⊢
  split
  · rename_i hnil
    rw [if_pos hnil] at hne
    exact absurd rfl hne
  · rename_i hnil
    rw [if_neg hnil] at hlen
    show Canonical ((resolveComps base input).foldl joinComp [])
    rw [foldl_joinComp_eq hlen]
    exact canonical_joined hnil (component_resolveComps base input)

end AliOS
