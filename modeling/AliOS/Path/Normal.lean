import Mathlib.Data.List.Infix
import AliOS.Path.Canonical

/-!
# AliOS.Path.Normal

The normal form of a path, as one would write it down: split at the slashes, drop empty
pieces and ".", let ".." remove the component before it, and join what is left.
`path_resolve` walks the same pieces (`resolveComps_eq`), with three limits of its own: a
component is cut to 31 characters, one that would be the 17th on the stack is dropped, and
the result is cut at 63 characters.

Where no limit is reached, `path_resolve` yields the normal form, which makes it
idempotent and lets `cd` go step by step.  The limits are silent: where one is reached,
another path has the same result.
-/

namespace AliOS

open Lib List

variable {base input : CStr}

/-! ## the normal form -/

/-- The strings between the slashes of what is walked: `input` alone if it is absolute. -/
def pieces (base input : CStr) : List (List UInt8) :=
  if input.get 0 = slash then input.chars.splitOn slash
  else base.chars.splitOn slash ++ input.chars.splitOn slash

/-- What a piece does to the components before it. -/
def normStep (comp : List (List UInt8)) (c : List UInt8) : List (List UInt8) :=
  if c = [] ∨ c = [dot] then comp
  else if c = [dot, dot] then comp.dropLast
  else comp ++ [c]

def normComps (base input : CStr) : List (List UInt8) := (pieces base input).foldl normStep []

/-- The normal form of `input` relative to `base`. -/
def normPath (base input : CStr) : List UInt8 :=
  if normComps base input = [] then [slash] else joined (normComps base input)

/-- None of the limits of `path_resolve` is reached: there are never more than 16 components,
and those that are left, and the path they make, are short enough. -/
structure Uncut (base input : CStr) : Prop where
  depth : ∀ l ∈ (pieces base input).inits, (l.foldl normStep []).length ≤ 16
  width : ∀ c ∈ normComps base input, c.length ≤ 31
  total : (normPath base input).length ≤ 63

/-- No piece at all is longer than 31 characters. -/
structure Within (base input : CStr) : Prop where
  width : ∀ c ∈ pieces base input, c.length ≤ 31
  depth : ∀ l ∈ (pieces base input).inits, (l.foldl normStep []).length ≤ 16
  total : (normPath base input).length ≤ 63

section

variable {comp ps : List (List UInt8)} {c s : List UInt8}

theorem mem_foldl_normStep (hc : c ∈ ps.foldl normStep comp) : c ∈ comp ∨ c ∈ ps := by
  induction ps generalizing comp with
  | nil => exact .inl hc
  | cons p ps ih =>
    rcases ih hc with hmem | hmem
    · unfold normStep at hmem
      split at hmem
      · exact .inl hmem
      · split at hmem
        · exact .inl (dropLast_subset comp hmem)
        · rcases mem_append.mp hmem with hmem | hmem
          · exact .inl hmem
          · exact .inr (by simp [mem_singleton.mp hmem])
    · exact .inr (mem_cons_of_mem p hmem)

theorem Within.uncut (h : Within base input) : Uncut base input where
  depth := h.depth
  width := fun c hc => h.width c ((mem_foldl_normStep hc).resolve_left (by simp))
  total := h.total

/-! ## the walk -/

theorem splitOn_cons (x : UInt8) (s : List UInt8) : (x :: s).splitOn slash =
    if x = slash then [] :: s.splitOn slash else (s.splitOn slash).modifyHead (x :: ·) := by
  unfold List.splitOn
  rw [splitOnP_cons_eq_if_modifyHead]
  simp only [beq_iff_eq]

/-- `WALK` treats one piece after the other. -/
theorem walkPath_eq : walkPath comp c s = ((s.splitOn slash).modifyHead (c ++ ·)).foldl
    walkComp comp := by
  induction s generalizing comp c with
  | nil => simp [walkPath]
  | cons x s ih =>
    rw [walkPath, splitOn_cons]
    split
    · rw [ih]
      have hid : (s.splitOn slash).modifyHead ([] ++ ·) = s.splitOn slash := by
        cases s.splitOn slash <;> rfl
      rw [hid]
      simp
    · rw [ih, modifyHead_modifyHead]
      congr 2
      funext d
      simp

theorem walkPath_nil : walkPath comp [] s = (s.splitOn slash).foldl walkComp comp := by
  rw [walkPath_eq]
  cases s.splitOn slash <;> rfl

theorem resolveComps_eq (base input : CStr) :
    resolveComps base input = (pieces base input).foldl walkComp [] := by
  unfold resolveComps pieces
  split
  · exact walkPath_nil
  · rw [walkPath_nil, walkPath_nil, foldl_append]

/-- With room on the stack a piece does what it should, up to the length of components. -/
theorem walkComp_take (h : (normStep comp c).length ≤ 16) :
    walkComp (comp.map (List.take 31)) c = (normStep comp c).map (List.take 31) := by
  unfold walkComp normStep pushComp at *
  by_cases h1 : c = []
  · simp [h1]
  · by_cases h2 : c = [dot]
    · simp [h2]
    · by_cases h3 : c = [dot, dot]
      · simp [h3, dot, map_dropLast]
      · simp only [h1, h2, h3, or_self, if_false, length_append, length_singleton] at h ⊢
        rw [if_pos (by rw [length_map]; omega)]
        simp

theorem foldl_walkComp_take (h : ∀ l, l <+: ps → (l.foldl normStep comp).length ≤ 16) :
    ps.foldl walkComp (comp.map (List.take 31)) = (ps.foldl normStep comp).map (List.take 31) := by
  induction ps generalizing comp with
  | nil => rfl
  | cons p ps ih =>
    have hstep : (normStep comp p).length ≤ 16 := h [p] (prefix_append [p] ps)
    rw [foldl_cons, walkComp_take hstep]
    exact ih fun l hl => h (p :: l) (cons_prefix_cons.mpr ⟨rfl, hl⟩)

theorem Uncut.resolveComps_eq (h : Uncut base input) :
    resolveComps base input = normComps base input := by
  have hwalk : (pieces base input).foldl walkComp [] = (normComps base input).map (List.take 31) :=
    foldl_walkComp_take fun l hl => h.depth l ((mem_inits l _).mpr hl)
  have hwhole : (normComps base input).map (List.take 31) = normComps base input := by
    conv_rhs => rw [← List.map_id (normComps base input)]
    exact map_congr_left fun c hc => List.take_of_length_le (h.width c hc)
  rw [AliOS.resolveComps_eq]
  exact hwalk.trans hwhole

/-! ## the result -/

/-- The buffer has room for all components. -/
theorem foldl_joinComp_of_le {out : List UInt8} (h : (out ++ joined comp).length ≤ 63) :
    comp.foldl joinComp out = out ++ joined comp := by
  induction comp generalizing out with
  | nil => simp [joined]
  | cons c comp ih =>
    have hsplit : out ++ joined (c :: comp) = (out ++ slash :: c) ++ joined comp := by simp [joined]
    have hwhole : joinComp out c = out ++ slash :: c := by
      have hc : c.length ≤ 63 - (out ++ [slash]).length := by
        rw [hsplit] at h
        simp only [length_append, length_cons, length_nil] at h ⊢
        omega
      simp only [joinComp, List.take_of_length_le hc, append_assoc, singleton_append]
    rw [foldl_cons, hwhole, hsplit]
    exact ih (hsplit ▸ h)

/-- **`path_resolve` yields the normal form** where none of its limits is reached. -/
theorem Uncut.pathResolve_eq (h : Uncut base input) :
    (pathResolve base input).chars = normPath base input := by
  have htotal := h.total
  unfold normPath at htotal ⊢
  rw [chars_pathResolve, h.resolveComps_eq]
  split
  · rfl
  · rename_i hne
    rw [if_neg hne] at htotal
    exact foldl_joinComp_of_le htotal

theorem slash_notMem_splitOn (hc : c ∈ s.splitOn slash) : slash ∉ c := by
  induction s generalizing c with
  | nil =>
    obtain rfl : c = [] := by simpa using hc
    simp
  | cons x s ih =>
    rw [splitOn_cons] at hc
    split at hc
    · rcases mem_cons.mp hc with rfl | hc
      · simp
      · exact ih hc
    · rename_i hx
      cases hs : s.splitOn slash with
      | nil => simp [hs] at hc
      | cons d ds =>
        rw [hs, modifyHead_cons] at hc
        rcases mem_cons.mp hc with rfl | hc
        · have hd : slash ∉ d := ih (by simp [hs])
          simpa [hd] using Ne.symm hx
        · exact ih (by simp [hs, hc])

theorem slash_notMem_pieces (hc : c ∈ pieces base input) : slash ∉ c := by
  unfold pieces at hc
  split at hc
  · exact slash_notMem_splitOn hc
  · rcases mem_append.mp hc with hc | hc <;> exact slash_notMem_splitOn hc

theorem component_foldl_normStep (hcomp : ∀ d ∈ comp, Component d) (hps : ∀ p ∈ ps, slash ∉ p) :
    ∀ d ∈ ps.foldl normStep comp, Component d := by
  induction ps generalizing comp with
  | nil => exact hcomp
  | cons p ps ih =>
    obtain ⟨hp, hps⟩ := forall_mem_cons.mp hps
    refine ih ?_ hps
    unfold normStep
    split
    · exact hcomp
    · rename_i hspecial
      split
      · exact fun d hd => hcomp d (dropLast_subset comp hd)
      · rename_i hdots
        intro d hd
        rcases mem_append.mp hd with hd | hd
        · exact hcomp d hd
        · obtain rfl := mem_singleton.mp hd
          exact ⟨fun h => hspecial (.inl h), fun h => hspecial (.inr h), hdots, hp⟩

theorem component_normComps (base input : CStr) : ∀ c ∈ normComps base input, Component c :=
  component_foldl_normStep (by simp) fun _ hp => slash_notMem_pieces hp

/-- Components alone are all kept. -/
theorem foldl_normStep_components {cs : List (List UInt8)} (hcs : ∀ c ∈ cs, Component c) :
    cs.foldl normStep comp = comp ++ cs := by
  induction cs generalizing comp with
  | nil => simp
  | cons c cs ih =>
    obtain ⟨hc, hcs⟩ := forall_mem_cons.mp hcs
    have hstep : normStep comp c = comp ++ [c] := by
      simp [normStep, hc.nonempty, hc.notDot, hc.notDotDot]
    rw [foldl_cons, hstep, ih hcs]
    simp

/-! ## resolving a result -/

/-- The pieces of components that are joined. -/
theorem splitOn_joined (hne : comp ≠ []) (h : ∀ c ∈ comp, slash ∉ c) :
    (joined comp).splitOn slash = [] :: comp := by
  rw [joined_eq hne, splitOn_cons, if_pos rfl, splitOn_intercalate slash h hne]

/-- The pieces of a normal form are its components, behind what stands before the first
slash. -/
theorem splitOn_normPath (base input : CStr) : (normPath base input).splitOn slash =
    [] :: if normComps base input = [] then [[]] else normComps base input := by
  unfold normPath
  split
  · rfl
  · rename_i hne
    exact splitOn_joined hne fun c hc => (component_normComps base input c hc).noSlash

theorem foldl_splitOn_normPath (base input : CStr) :
    ((normPath base input).splitOn slash).foldl normStep [] = normComps base input := by
  have hempty : normStep [] [] = [] := if_pos (.inl rfl)
  rw [splitOn_normPath, foldl_cons, hempty]
  split
  · rename_i hnil
    rw [hnil, foldl_cons, hempty, foldl_nil]
  · exact foldl_normStep_components (component_normComps base input)

theorem length_foldl_normStep_le :
    (ps.foldl normStep comp).length ≤ comp.length + ps.countP (· != []) := by
  induction ps generalizing comp with
  | nil => simp
  | cons p ps ih =>
    refine ih.trans ?_
    unfold normStep
    split
    · simp only [countP_cons]
      omega
    · rename_i hspecial
      have hp : (p != []) := by simpa using fun h => hspecial (.inl h)
      split
      · simp only [length_dropLast, countP_cons]
        omega
      · simp only [length_append, length_singleton, countP_cons, hp, if_true]
        omega

/-- Walking a normal form, the stack only grows. -/
theorem depth_splitOn_normPath {l : List (List UInt8)}
    (hl : l <+: (normPath base input).splitOn slash) :
    (l.foldl normStep []).length ≤ (normComps base input).length := by
  have hcount : ((normPath base input).splitOn slash).countP (· != []) ≤
      (normComps base input).length := by
    rw [splitOn_normPath]
    split
    · simp
    · simpa using countP_le_length
  calc (l.foldl normStep []).length
      ≤ l.countP (· != []) := length_foldl_normStep_le.trans_eq (Nat.zero_add _)
    _ ≤ ((normPath base input).splitOn slash).countP (· != []) := hl.sublist.countP_le
    _ ≤ (normComps base input).length := hcount

theorem Uncut.length_normComps (h : Uncut base input) : (normComps base input).length ≤ 16 :=
  h.depth _ ((mem_inits _ _).mpr (prefix_refl _))

end

section

variable {base input x y : CStr}

/-- A normal form is absolute. -/
theorem get_zero_of_normPath {r : CStr} (hr : r.chars = normPath base input) : r.get 0 = slash := by
  unfold CStr.get
  rw [hr, normPath]
  split
  · rfl
  · rename_i hne
    rw [joined_eq hne]
    rfl

theorem normComps_of_normPath {r : CStr} (hr : r.chars = normPath base input) (base' : CStr) :
    normComps base' r = normComps base input := by
  rw [normComps, pieces, if_pos (get_zero_of_normPath hr), hr]
  exact foldl_splitOn_normPath base input

/-- A result is resolved to itself, from everywhere. -/
theorem Uncut.resolve_again (h : Uncut base input) (base' : CStr) :
    pathResolve base' (pathResolve base input) = pathResolve base input := by
  have hr := h.pathResolve_eq
  have hcomps := normComps_of_normPath hr base'
  have hnorm : normPath base' (pathResolve base input) = normPath base input := by
    simp only [normPath, hcomps]
  have hagain : Uncut base' (pathResolve base input) := by
    refine ⟨fun l hl => ?_, ?_, ?_⟩
    · rw [pieces, if_pos (get_zero_of_normPath hr), hr] at hl
      exact (depth_splitOn_normPath ((mem_inits _ _).mp hl)).trans h.length_normComps
    · rw [hcomps]
      exact h.width
    · rw [hnorm]
      exact h.total
  refine CStr.ext ?_
  rw [hagain.pathResolve_eq, hnorm, hr]

/-- The string `x/y`. -/
def slashJoin (x y : CStr) : CStr where
  chars := x.chars ++ slash :: y.chars
  noNul := by
    intro c hc
    simp only [mem_append, mem_cons] at hc
    rcases hc with hc | rfl | hc
    · exact x.noNul c hc
    · decide
    · exact y.noNul c hc

theorem pieces_slashJoin (hx : x.chars ≠ []) (b : CStr) :
    pieces b (slashJoin x y) = pieces b x ++ y.chars.splitOn slash := by
  have hget : (slashJoin x y).get 0 = x.get 0 := by
    obtain ⟨a, s, hs⟩ := exists_cons_of_ne_nil hx
    simp [CStr.get, slashJoin, hs]
  have hsplit : (slashJoin x y).chars.splitOn slash = x.chars.splitOn slash ++
      y.chars.splitOn slash :=
    splitOnP_append_cons _ _ (by simp)
  unfold pieces
  rw [hget, hsplit]
  split
  · rfl
  · rw [append_assoc]

/-- Resolving `y` from where `x` leads is resolving `x/y`. -/
theorem Uncut.resolve_step {b : CStr} (h : Uncut b x) (hx : x.chars ≠ []) (hy : y.get 0 ≠ slash)
    (hxy : Uncut b (slashJoin x y)) : pathResolve (pathResolve b x) y =
      pathResolve b (slashJoin x y) := by
  have hr := h.pathResolve_eq
  have hpieces : pieces (pathResolve b x) y = (normPath b x).splitOn slash ++
      y.chars.splitOn slash := by
    rw [pieces, if_neg hy, hr]
  have hcomps : normComps (pathResolve b x) y = normComps b (slashJoin x y) := by
    rw [normComps, hpieces, foldl_append, foldl_splitOn_normPath, normComps, normComps,
      pieces_slashJoin hx, foldl_append]
  have hnorm : normPath (pathResolve b x) y = normPath b (slashJoin x y) := by
    simp only [normPath, hcomps]
  have hstep : Uncut (pathResolve b x) y := by
    refine ⟨fun l hl => ?_, ?_, ?_⟩
    · obtain ⟨t, ht⟩ := (mem_inits _ _).mp hl
      rw [hpieces] at ht
      obtain ⟨rest, hleft, -⟩ | ⟨l', rfl, hright⟩ := append_eq_append_iff.mp ht
      · exact (depth_splitOn_normPath ⟨rest, hleft.symm⟩).trans h.length_normComps
      · -- from here on the stack is the one that `x/y` has
        have hinit : pieces b x ++ l' <+: pieces b (slashJoin x y) :=
          ⟨t, by rw [pieces_slashJoin hx, hright, append_assoc]⟩
        have hdepth := hxy.depth _ ((mem_inits _ _).mpr hinit)
        rwa [foldl_append, foldl_splitOn_normPath, normComps, ← foldl_append]
    · rw [hcomps]
      exact hxy.width
    · rw [hnorm]
      exact hxy.total
  refine CStr.ext ?_
  rw [hstep.pathResolve_eq, hxy.pathResolve_eq, hnorm]

end

/-- **`path_resolve` normalises.**  For a base and an input within its limits the result is
the normal form; it is the root or a canonical path, and is resolved to itself.  If the
path `x/y` is within the limits as well, where `x` is not empty and `y` is relative, then
it leads where `y` leads from where `x` leads. -/
theorem pathResolve_normalises :
    (∀ base input, Within base input →
      (pathResolve base input).chars = normPath base input ∧
      (pathResolve base input = rootPath ∨ Canonical (pathResolve base input).chars) ∧
      ∀ base', pathResolve base' (pathResolve base input) = pathResolve base input) ∧
    ∀ b x y, Within b x → Within b (slashJoin x y) → x.chars ≠ [] → y.get 0 ≠ slash →
      pathResolve (pathResolve b x) y = pathResolve b (slashJoin x y) := by
  refine ⟨fun base input h => ⟨h.uncut.pathResolve_eq, ?_,
    fun base' => h.uncut.resolve_again base'⟩,
    fun b x y h hxy hx hy => h.uncut.resolve_step hx hy hxy.uncut⟩
  by_cases hnil : normComps base input = []
  · refine .inl (CStr.ext ?_)
    rw [h.uncut.pathResolve_eq, normPath, if_pos hnil]
    rfl
  · refine .inr ?_
    rw [h.uncut.pathResolve_eq, normPath, if_neg hnil]
    exact canonical_joined hnil (component_normComps base input)

/-- `cd bin`, `cd ../etc//x`: from "/bin" to "/etc/x". -/
theorem pathResolve_normalises_etc :
    (pathResolve (.ascii "/bin") (.ascii "../etc//x")).chars = normPath (.ascii "/bin")
    (.ascii "../etc//x") ∧
    pathResolve (pathResolve (.ascii "/") (.ascii "bin")) (.ascii "../etc//x") =
      pathResolve (.ascii "/") (slashJoin (.ascii "bin") (.ascii "../etc//x")) := by
  have hetc : Within (.ascii "/bin") (.ascii "../etc//x") := by constructor <;> decide +kernel
  have hbin : Within (.ascii "/") (.ascii "bin") := by constructor <;> decide +kernel
  have hboth : Within (.ascii "/") (slashJoin (.ascii "bin") (.ascii "../etc//x")) := by
    constructor <;> decide +kernel
  exact ⟨(pathResolve_normalises.1 _ _ hetc).1,
    pathResolve_normalises.2 _ _ _ hbin hboth (by decide +kernel) (by decide +kernel)⟩

/-- For the empty `x` the string `x/y` is absolute, and the base plays no part. -/
theorem pathResolve_empty_step : Within (.ascii "/a") (.ascii "") ∧
    Within (.ascii "/a") (slashJoin (.ascii "") (.ascii "c")) ∧ (CStr.ascii "c").get 0 ≠ slash ∧
    pathResolve (pathResolve (.ascii "/a") (.ascii "")) (.ascii "c") = .ascii "/a/c" ∧
    pathResolve (.ascii "/a") (slashJoin (.ascii "") (.ascii "c")) = .ascii "/c" := by
  refine ⟨?_, ?_, by decide +kernel, by decide +kernel, by decide +kernel⟩
  · constructor <;> decide +kernel
  · constructor <;> decide +kernel

/-! ## different paths -/

section

variable {comp : List (List UInt8)} {c : List UInt8}

/-- What a component on the stack of `path_resolve` is like. -/
theorem short_walkComp (h : comp.length ≤ 16 ∧ ∀ d ∈ comp, d.length ≤ 31) :
    (walkComp comp c).length ≤ 16 ∧ ∀ d ∈ walkComp comp c, d.length ≤ 31 := by
  obtain ⟨hlen, hshort⟩ := h
  unfold walkComp pushComp
  split
  · exact ⟨hlen, hshort⟩
  · split
    · exact ⟨hlen, hshort⟩
    · split
      · exact ⟨by rw [length_dropLast]; omega, fun d hd => hshort d (dropLast_subset comp hd)⟩
      · split
        · refine ⟨by simp; omega, fun d hd => ?_⟩
          rcases mem_append.mp hd with hd | hd
          · exact hshort d hd
          · obtain rfl := mem_singleton.mp hd
            exact length_take_le 31 c
        · exact ⟨hlen, hshort⟩

theorem short_foldl_walkComp {ps : List (List UInt8)}
    (h : comp.length ≤ 16 ∧ ∀ d ∈ comp, d.length ≤ 31) :
    (ps.foldl walkComp comp).length ≤ 16 ∧ ∀ d ∈ ps.foldl walkComp comp, d.length ≤ 31 := by
  induction ps generalizing comp with
  | nil => exact h
  | cons p _ ih => exact ih (short_walkComp h)

theorem short_resolveComps (base input : CStr) :
    (resolveComps base input).length ≤ 16 ∧ ∀ c ∈ resolveComps base input, c.length ≤ 31 := by
  rw [resolveComps_eq]
  exact short_foldl_walkComp (by simp)

theorem walkComp_component (hc : Component c) : walkComp comp c = pushComp comp c := by
  simp [walkComp, hc.nonempty, hc.notDot, hc.notDotDot]

/-- As long as there is room, components are pushed. -/
theorem foldl_walkComp_push {cs : List (List UInt8)} (hcs : ∀ c ∈ cs, Component c ∧ c.length ≤ 31)
    (hroom : comp.length + cs.length ≤ 16) : cs.foldl walkComp comp = comp ++ cs := by
  induction cs generalizing comp with
  | nil => simp
  | cons c cs ih =>
    obtain ⟨⟨hc, hlen⟩, hcs⟩ := forall_mem_cons.mp hcs
    rw [length_cons] at hroom
    have hpush : walkComp comp c = comp ++ [c] := by
      rw [walkComp_component hc, pushComp, if_pos (by omega), List.take_of_length_le hlen]
    rw [foldl_cons, hpush, ih hcs (by simp; omega)]
    simp

/-- Once the stack is full, they are dropped. -/
theorem foldl_walkComp_full {cs : List (List UInt8)} (hcs : ∀ c ∈ cs, Component c)
    (hfull : comp.length = 16) :
    cs.foldl walkComp comp = comp := by
  induction cs with
  | nil => rfl
  | cons c cs ih =>
    obtain ⟨hc, hcs⟩ := forall_mem_cons.mp hcs
    have hpush : walkComp comp c = comp := by
      rw [walkComp_component hc, pushComp, if_neg (by omega)]
    rw [foldl_cons, hpush, ih hcs]

/-- Each ".." removes a component. -/
theorem foldl_dots {step : List (List UInt8) → List UInt8 → List (List UInt8)}
    (hstep : ∀ comp, step comp [dot, dot] = comp.dropLast) (n : Nat) :
    (List.replicate n [dot, dot]).foldl step comp = comp.take (comp.length - n) := by
  induction n with
  | zero => simp
  | succ n ih =>
    rw [replicate_succ', foldl_append, ih, foldl_cons, foldl_nil, hstep, dropLast_eq_take,
      take_take, length_take]
    congr 1
    omega

/-- The component "a". -/
def fillerName : List UInt8 := [97]

theorem component_fillerName : Component fillerName := ⟨by decide, by decide, by decide, by decide⟩

/-- Components that fill the stack, `m` more of them, and as many ".." as it takes to get
back to `comp`. -/
def overfull (comp : List (List UInt8)) (m : Nat) : List (List UInt8) :=
  comp ++ List.replicate (16 - comp.length) fillerName ++ List.replicate m fillerName ++
    List.replicate (16 - comp.length) [dot, dot]

theorem foldl_walkComp_overfull (hlen : comp.length ≤ 16)
    (hcomp : ∀ c ∈ comp, Component c ∧ c.length ≤ 31)
    (m : Nat) : (overfull comp m).foldl walkComp [] = comp := by
  have hfill : (comp ++ List.replicate (16 - comp.length) fillerName).foldl walkComp [] =
      comp ++ List.replicate (16 - comp.length) fillerName := by
    refine foldl_walkComp_push (fun c hc => ?_) (by simp; omega)
    rcases mem_append.mp hc with hc | hc
    · exact hcomp c hc
    · rw [eq_of_mem_replicate hc]
      exact ⟨component_fillerName, by decide⟩
  have hdrop : (List.replicate m fillerName).foldl walkComp
      (comp ++ List.replicate (16 - comp.length) fillerName) =
      comp ++ List.replicate (16 - comp.length) fillerName := by
    refine foldl_walkComp_full (fun c hc => ?_) (by simp; omega)
    rw [eq_of_mem_replicate hc]
    exact component_fillerName
  rw [overfull, foldl_append, foldl_append, hfill, hdrop, foldl_dots fun _ => rfl]
  refine (take_append_of_le_length ?_).trans (List.take_of_length_le ?_)
  · simp
  · simp

/-- The dropped components are what the path differs in. -/
theorem foldl_normStep_overfull (hcomp : ∀ c ∈ comp, Component c) (m : Nat) :
    (overfull comp m).foldl normStep [] = comp ++ List.replicate m fillerName := by
  have hkeep : (comp ++ List.replicate (16 - comp.length) fillerName ++
      List.replicate m fillerName).foldl normStep [] =
      comp ++ List.replicate m fillerName ++ List.replicate (16 - comp.length) fillerName := by
    rw [foldl_normStep_components, nil_append, append_assoc, append_assoc,
      replicate_append_replicate, replicate_append_replicate, Nat.add_comm]
    intro c hc
    simp only [mem_append, mem_replicate] at hc
    rcases hc with (hc | ⟨-, rfl⟩) | ⟨-, rfl⟩
    · exact hcomp c hc
    · exact component_fillerName
    · exact component_fillerName
  rw [overfull, foldl_append, hkeep, foldl_dots fun _ => rfl]
  refine (take_append_of_le_length ?_).trans (List.take_of_length_le ?_)
  · simp
    omega
  · simp
    omega

theorem mem_overfull {m : Nat} (hc : c ∈ overfull comp m) :
    c ∈ comp ∨ c = fillerName ∨ c = [dot, dot] := by
  simp only [overfull, mem_append, mem_replicate] at hc
  tauto

theorem overfull_ne_nil (comp : List (List UInt8)) (m : Nat) : overfull comp (m + 1) ≠ [] := by
  simp [overfull]

theorem nulFree_overfull {m : Nat} (hcomp : ∀ c ∈ comp, ∀ z ∈ c, z ≠ 0) :
    ∀ z ∈ joined (overfull comp m), z ≠ 0 := by
  intro z hz
  obtain ⟨c, hc, hz⟩ := mem_flatMap.mp hz
  rcases mem_cons.mp hz with rfl | hz
  · decide
  · rcases mem_overfull hc with hc | rfl | rfl
    · exact hcomp c hc z hz
    · obtain rfl := mem_singleton.mp hz
      decide
    · simp only [mem_cons, not_mem_nil, or_false, or_self] at hz
      subst hz
      decide

/-- The absolute path of what `x` is resolved to, by way of a stack that runs over. -/
def detour (b x : CStr) (m : Nat) : CStr :=
  ⟨joined (overfull (resolveComps b x) (m + 1)), nulFree_overfull (nulFree_resolveComps b x)⟩

theorem pieces_detour (b x : CStr) (m : Nat) :
    pieces b (detour b x m) = [] :: overfull (resolveComps b x) (m + 1) := by
  have habs : (detour b x m).get 0 = slash := by
    simp [detour, CStr.get, joined_eq (overfull_ne_nil _ m)]
  rw [pieces, if_pos habs]
  refine splitOn_joined (overfull_ne_nil _ m) fun c hc => ?_
  rcases mem_overfull hc with hc | rfl | rfl
  · exact (component_resolveComps b x c hc).noSlash
  · exact component_fillerName.noSlash
  · decide

theorem pathResolve_detour (b x : CStr) (m : Nat) :
    pathResolve b (detour b x m) = pathResolve b x := by
  obtain ⟨hlen, hshort⟩ := short_resolveComps b x
  have hres : resolveComps b (detour b x m) = resolveComps b x := by
    rw [resolveComps_eq, pieces_detour, foldl_cons]
    exact foldl_walkComp_overfull hlen (fun c hc => ⟨component_resolveComps b x c hc, hshort c hc⟩)
      (m + 1)
  refine CStr.ext ?_
  rw [chars_pathResolve, chars_pathResolve, hres]

theorem normPath_detour (b x : CStr) (m : Nat) :
    normPath b (detour b x m) = joined (resolveComps b x ++ List.replicate (m + 1) fillerName) := by
  have hcomps : normComps b (detour b x m) = resolveComps b x ++
      List.replicate (m + 1) fillerName := by
    rw [normComps, pieces_detour, foldl_cons]
    exact foldl_normStep_overfull (component_resolveComps b x) (m + 1)
  rw [normPath, hcomps, if_neg (by simp)]

/-- Every path shares its result with another one. -/
theorem exists_same_result (b x : CStr) :
    ∃ y, normPath b y ≠ normPath b x ∧ pathResolve b y = pathResolve b x := by
  -- the normal forms of the first two detours differ, so one of them is not that of `x`
  by_cases h0 : normPath b (detour b x 0) = normPath b x
  · refine ⟨detour b x 1, fun h1 => ?_, pathResolve_detour b x 1⟩
    have hlens := congrArg List.length (h1.trans h0.symm)
    simp [normPath_detour, joined, fillerName] at hlens
  · exact ⟨detour b x 0, h0, pathResolve_detour b x 0⟩

end

/-- **Different paths have different results as long as nothing is cut.**  Two inputs that
both stay within the limits of `path_resolve` and have different normal forms are resolved
to different strings.  Nothing can be said of one input alone: every path shares its
result with one that has another normal form. -/
theorem pathResolve_injective (b x : CStr) :
    (Uncut b x → ∀ y, Uncut b y → normPath b x ≠ normPath b y → pathResolve b x ≠ pathResolve b y) ∧
    ∃ y, normPath b y ≠ normPath b x ∧ pathResolve b y = pathResolve b x := by
  refine ⟨fun hx y hy hne heq => hne ?_, exists_same_result b x⟩
  rw [← hx.pathResolve_eq, ← hy.pathResolve_eq, heq]

/-- "cat" and "car". -/
theorem pathResolve_injective_cat :
    pathResolve (.ascii "/") (.ascii "cat") ≠ pathResolve (.ascii "/") (.ascii "car") := by
  have hcat : Uncut (.ascii "/") (.ascii "cat") := by constructor <;> decide +kernel
  have hcar : Uncut (.ascii "/") (.ascii "car") := by constructor <;> decide +kernel
  exact (pathResolve_injective _ _).1 hcat _ hcar (by decide +kernel)

/-- Two names of 32 characters that differ in the last one. -/
theorem pathResolve_cuts :
    normPath (.ascii "/") (.ascii "aaaaaaaaaaaaaaaaaaaaaaaaaaaaaaa1") ≠
      normPath (.ascii "/") (.ascii "aaaaaaaaaaaaaaaaaaaaaaaaaaaaaaa2") ∧
    pathResolve (.ascii "/") (.ascii "aaaaaaaaaaaaaaaaaaaaaaaaaaaaaaa1") =
      pathResolve (.ascii "/") (.ascii "aaaaaaaaaaaaaaaaaaaaaaaaaaaaaaa2") := by
  decide +kernel

end AliOS
