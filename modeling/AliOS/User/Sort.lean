import Mathlib.Data.List.Lex
import Mathlib.Data.List.Sort
import Mathlib.Data.Prod.Lex
import AliOS.User

/-!
# AliOS.User.Sort

`sort` (`user/sort.c`).  `mklines` ends the lines in place and notes where they begin; `_start`
sorts these places by insertion, shifting from the right those with a greater line.  A line
that is equal stays in front, so the order is that of the lines and then of the places.
-/

namespace AliOS

open Lib List

/-! ## the program -/

/-- `while (p < e && *p != '\n') p++;` -/
def sortSkip (ibuf : List UInt8) (e p : Nat) : Nat :=
  if p < e ∧ ibuf.getD p 0 ≠ newline then sortSkip ibuf e (p + 1) else p
termination_by e - p

theorem le_sortSkip (ibuf : List UInt8) (e p : Nat) : p ≤ sortSkip ibuf e p := by
  fun_induction sortSkip ibuf e p <;> omega

/-- `mklines`: the buffer with the terminators in it and `lines`. -/
def mklines (e : Nat) (ibuf : List UInt8) (starts : List Nat) (p : Nat) : List UInt8 × List Nat :=
  if p < e ∧ starts.length < 200 then
    let q := sortSkip ibuf e p
    if q < e then mklines e (ibuf.set q 0) (starts ++ [p]) (q + 1)
      else mklines e ibuf (starts ++ [p]) q
  else (ibuf, starts)
termination_by e - p
decreasing_by
  all_goals
    have := le_sortSkip ibuf e p
    omega

/-- `scmp`, on the characters in front of the terminators. -/
def scmp : List UInt8 → List UInt8 → Int
  | [], b => 0 - (b.headD 0).toNat
  | x :: a, b => if x = b.headD 0 then scmp a b.tail else x.toNat - (b.headD 0).toNat

/-- The inner loop: `k` is put in its place among the first `j` entries. -/
def sortInsert (cmp : Nat → Nat → Int) (k : Nat) : Nat → List Nat → List Nat
  | 0, a => a.set 0 k
  | j + 1, a => if cmp (a.getD j 0) k > 0 then sortInsert cmp k j (a.set (j + 1) (a.getD j 0))
      else a.set (j + 1) k

def sortStart (files : CStr → Option Input) (stdin : Input) (argv : List CStr) : Ran :=
  match inputOf files stdin argv.tail.head? with
  | none => ⟨text "sort: cannot open file\n", 1⟩
  | some inp =>
    let bytes := readAll 4095 [] inp
    let (ibuf, starts) := mklines bytes.length (bytes ++ [0]) [] 0
    let str p := putsBuf (ibuf.drop p)
    let sorted := (List.range' 1 (starts.length - 1)).foldl
      (fun a i => sortInsert (fun x y => scmp (str x) (str y)) (a.getD i 0) i a) starts
    ⟨sorted.flatMap fun p => str p ++ [newline], 0⟩

/-! ## the loops of the sort -/

section

variable {cmp : Nat → Nat → Int} {k x : Nat} {R : Nat → Nat → Prop} [DecidableRel R]

/-- The inner loop is an insertion, seen from the right. -/
theorem sortInsert_eq (l r : List Nat) : sortInsert cmp k l.length (l ++ x :: r) =
    (l.reverse.orderedInsert (fun k y => cmp y k ≤ 0) k).reverse ++ r := by
  induction l using List.reverseRecOn generalizing x r with
  | nil => rfl
  | append_singleton l y ih =>
    have hget : (l ++ [y] ++ x :: r).getD l.length 0 = y := by simp
    have hset : (l ++ [y] ++ x :: r).set (l.length + 1) y = l ++ y :: y :: r := by simp
    rw [length_append, length_singleton, sortInsert, hget, reverse_concat, orderedInsert_cons]
    split
    · rw [if_neg (by omega), hset, ih]
      simp
    · rw [if_pos (by omega)]
      simp

theorem orderedInsert_congr {r : Nat → Nat → Prop} [DecidableRel r] {l : List Nat}
    (h : ∀ y ∈ l, r k y ↔ R k y) :
    l.orderedInsert r k = l.orderedInsert R k := by
  induction l with
  | nil => rfl
  | cons y l ih =>
    obtain ⟨hy, hl⟩ := forall_mem_cons.mp h
    simp only [orderedInsert_cons, hy, ih hl]

/-- The outer loop, for a relation that agrees with the comparison of an entry and a later one. -/
theorem foldl_sortInsert {l r : List Nat} (h : (l ++ r).Pairwise fun y k => cmp y k ≤ 0 ↔ R k y) :
    (List.range' l.length r.length).foldl (fun a i => sortInsert cmp (a.getD i 0) i a)
        ((l.reverse.insertionSort R).reverse ++ r) =
          ((l ++ r).reverse.insertionSort R).reverse := by
  induction r generalizing l with
  | nil => simp
  | cons k r ih =>
    have hk : ∀ y ∈ l.reverse.insertionSort R, cmp y k ≤ 0 ↔ R k y := fun y hy =>
      (pairwise_append.mp h).2.2 y (by simpa using hy) k mem_cons_self
    have hget : ((l.reverse.insertionSort R).reverse ++ k :: r).getD l.length 0 = k := by simp
    have hput := @sortInsert_eq cmp k k (l.reverse.insertionSort R).reverse r
    rw [reverse_reverse, orderedInsert_congr hk, ← insertionSort_cons, ← reverse_concat] at hput
    have hrest := @ih (l ++ [k]) (by simpa using h)
    simp only [length_reverse, length_insertionSort, length_append, length_singleton] at hput hrest
    rwa [length_cons, List.range'_succ, foldl_cons, hget, hput, append_cons l k r]

theorem foldl_sortInsert_one {places : List Nat}
    (h : places.Pairwise fun y k => cmp y k ≤ 0 ↔ R k y) :
    (List.range' 1 (places.length - 1)).foldl (fun a i => sortInsert cmp (a.getD i 0) i a) places =
      (places.reverse.insertionSort R).reverse := by
  cases places with
  | nil => rfl
  | cons p places => simpa using foldl_sortInsert (l := [p]) (r := places) h

end

variable {s l pre rest a b : List UInt8}

/-- The bytes of a line as numbers, for their order. -/
def unsigned (l : List UInt8) : List Nat := l.map UInt8.toNat

theorem scmp_pos_iff (ha : ∀ c ∈ a, c ≠ 0) (hb : ∀ c ∈ b, c ≠ 0) :
    scmp a b > 0 ↔ unsigned b < unsigned a := by
  induction a generalizing b with
  | nil => cases b <;> simp [scmp, unsigned]
  | cons x a ih =>
    obtain ⟨hx, ha⟩ := forall_mem_cons.mp ha
    cases b with
    | nil =>
      have : x.toNat ≠ 0 := fun h => hx (UInt8.toNat_inj.mp h)
      simp [scmp, unsigned, hx]
      omega
    | cons y b =>
      obtain ⟨-, hb⟩ := forall_mem_cons.mp hb
      rw [scmp, headD_cons, tail_cons, unsigned, unsigned, map_cons, map_cons,
        cons_lt_cons_iff]
      by_cases heq : x = y
      · simp [heq, ih ha hb, unsigned]
      · have : y.toNat ≠ x.toNat := fun h => heq (UInt8.toNat_inj.mp h).symm
        simp [heq, this]

/-! ## mklines -/

/-- The line that begins at a place in the text. -/
def lineAt (s : List UInt8) (p : Nat) : List UInt8 := (s.drop p).takeWhile (· != newline)

theorem lineAt_length (hl : ∀ c ∈ l, (c == newline) = false) (pre : List UInt8)
    (h : ∀ c ∈ rest.head?, c = newline) :
    lineAt (pre ++ (l ++ rest)) pre.length = l := by
  have hrest : rest.takeWhile (· != newline) = [] := by cases rest <;> simp_all
  rw [lineAt, drop_left, takeWhile_append_of_pos fun c hc => by simpa using hl c hc,
    hrest, append_nil]

/-- A terminator in place of a newline. -/
def cutAt (c : UInt8) : UInt8 := if c = newline then 0 else c

theorem map_cutAt (h : ∀ c ∈ l, (c == newline) = false) : l.map cutAt = l := by
  have hmap : l.map cutAt = l.map id := map_congr_left fun c hc => if_neg (by simpa using h c hc)
  rwa [List.map_id] at hmap

theorem sortSkip_eq (hl : ∀ c ∈ l, (c == newline) = false) (pre : List UInt8) {e : Nat}
    (he : e = pre.length + l.length ∨ pre.length + l.length < e ∧ rest.head? = some newline) :
    sortSkip (pre ++ (l ++ rest)) e pre.length = pre.length + l.length := by
  induction l generalizing pre with
  | nil =>
    rw [sortSkip, if_neg]
    · simp
    · rcases he with rfl | ⟨-, hrest⟩
      · simp
      · cases rest <;> simp_all
  | cons c l ih =>
    obtain ⟨hc, hl⟩ := forall_mem_cons.mp hl
    have hnext := ih hl (pre ++ [c]) (by simpa [Nat.add_assoc, Nat.add_comm 1] using he)
    rw [sortSkip, if_pos]
    · simpa [Nat.add_comm, Nat.add_left_comm] using hnext
    · rw [length_cons] at he
      exact ⟨by omega, by simpa using hc⟩

/-- `mklines` ends every line, and finds where they begin. -/
theorem mklines_eq (pre rest : List UInt8) (starts : List Nat)
    (h : starts.length + (lines (· == newline) rest).length ≤ 200) :
    ∃ ss, mklines (pre ++ rest).length (pre.map cutAt ++ (rest ++ [0])) starts pre.length =
        ((pre ++ rest).map cutAt ++ [0], starts ++ ss) ∧
      ss.map (lineAt (pre ++ rest)) = lines (· == newline) rest ∧ ss.Pairwise (· < ·) ∧
        ∀ p ∈ ss, pre.length ≤ p := by
  induction rest using linesInduction (· == newline) generalizing pre starts with
  | last l hl =>
    rw [lines_of_forall hl] at h ⊢
    by_cases hnil : l = []
    · exact ⟨[], by rw [mklines]; simp [hnil], by simp [hnil], .nil, by simp⟩
    · have hskip := @sortSkip_eq l [0] hl (pre.map cutAt) _ (.inl rfl)
      have hline := @lineAt_length l [] hl pre (by simp)
      have hpos := length_pos_iff.mpr hnil
      rw [flush_of_ne hnil] at h ⊢
      rw [length_map] at hskip
      refine ⟨[pre.length], ?_, by simpa using hline, pairwise_singleton _ _, by simp⟩
      rw [mklines, if_pos (by simp at h ⊢; omega)]
      simp only [length_append, hskip]
      rw [if_neg (by omega), mklines, if_neg (by omega)]
      simp [map_cutAt hl]
  | line l c t hl hc ih =>
    obtain rfl : c = newline := by simpa using hc
    have hskip := @sortSkip_eq l (newline :: t ++ [0]) hl (pre.map cutAt)
      (pre ++ (l ++ newline :: t)).length
      (.inr (by simp))
    have hline := @lineAt_length l (newline :: t) hl pre (by simp)
    have hset : (pre.map cutAt ++ (l ++ newline :: t ++ [0])).set (pre.length + l.length) 0 =
        (pre ++ l ++ [newline]).map cutAt ++ (t ++ [0]) := by simp [map_cutAt hl, cutAt]
    rw [lines_append_cons hl hc] at h ⊢
    obtain ⟨ss, hss, hlines, hlt, hle⟩ :=
      ih (pre ++ l ++ [newline]) (starts ++ [pre.length]) (by simp at h ⊢; omega)
    have hafter : ∀ p ∈ ss, pre.length < p := fun p hp => by
      have := hle p hp
      simp only [length_append, length_singleton] at this
      omega
    rw [show pre ++ l ++ [newline] ++ t = pre ++ (l ++ newline :: t) by simp] at hss hlines
    refine ⟨pre.length :: ss, ?_, by rw [map_cons, hline, hlines], pairwise_cons.mpr ⟨hafter, hlt⟩,
      ?_⟩
    · rw [length_map, ← append_assoc l] at hskip
      rw [mklines, if_pos (by simp at h ⊢; omega)]
      simp only [hskip]
      rw [if_pos (by simp), hset]
      simpa [Nat.add_assoc] using hss
    · simpa using fun p hp => (hafter p hp).le

theorem takeWhile_cut (hs : ∀ c ∈ s, c ≠ 0) (h : ∀ c ∈ rest.head?, c = 0) :
    (s.map cutAt ++ rest).takeWhile (· != 0) = s.takeWhile (· != newline) := by
  induction s with
  | nil => cases rest <;> simp_all
  | cons c s ih =>
    obtain ⟨hc, hs⟩ := forall_mem_cons.mp hs
    by_cases hnl : c = newline
    · simp [hnl, cutAt]
    · simp [hnl, cutAt, hc, ih hs]

theorem putsBuf_cut (h : ∀ c ∈ s, c ≠ 0) (p : Nat) :
    putsBuf ((s.map cutAt ++ [0]).drop p) = lineAt s p := by
  rw [drop_append, ← map_drop]
  refine takeWhile_cut (fun c hc => h c (mem_of_mem_drop hc)) fun c hc => ?_
  cases hp : p - (s.map cutAt).length <;> simp_all

/-! ## sort -/

/-- Lines in order, and equal lines in the order in which they come. -/
def SortsBefore (s : List UInt8) (p q : Nat) : Prop :=
  unsigned (lineAt s p) < unsigned (lineAt s q) ∨ lineAt s p = lineAt s q ∧ p < q

/-- **`sort` sorts.**  The places where the lines begin are put in order, and their lines
written. -/
theorem sort_sorts {files : CStr → Option Input} {stdin inp : Input} {argv : List CStr}
    (hopen : inputOf files stdin argv.tail.head? = some inp) (hlen : inp.bytes.length ≤ 4095)
    (hlines : (textLines inp.bytes).length ≤ 200) (hnul : ∀ c ∈ inp.bytes, c ≠ 0) :
    ∃ starts offs : List Nat, starts.map (lineAt inp.bytes) = textLines inp.bytes ∧
      starts.Pairwise (· < ·) ∧
      offs.Perm starts ∧ offs.Pairwise (SortsBefore inp.bytes) ∧
      sortStart files stdin argv = ⟨unlines newline (offs.map (lineAt inp.bytes)), 0⟩ := by
  obtain ⟨starts, hmk, hmap, hlt, -⟩ := mklines_eq [] inp.bytes [] (by simpa using hlines)
  simp only [nil_append, map_nil, length_nil] at hmk hmap
  have hline : ∀ p, ∀ c ∈ lineAt inp.bytes p, c ≠ 0 := fun p c hc =>
    hnul c (mem_of_mem_drop ((takeWhile_sublist _).subset hc))
  let key (p : Nat) := toLex (unsigned (lineAt inp.bytes p), p)
  let R (k y : Nat) : Prop := key y ≤ key k
  have hcmp : starts.Pairwise fun y k => scmp (lineAt inp.bytes y) (lineAt inp.bytes k) ≤ 0 ↔
      R k y :=
    hlt.imp fun {y k} hyk => by
      rw [← not_lt, ← gt_iff_lt, scmp_pos_iff (hline y) (hline k), not_lt, le_iff_lt_or_eq]
      simp [R, key, Prod.Lex.toLex_le_toLex, hyk.le]
  have : Std.Total R := ⟨fun a b => le_total (key b) (key a)⟩
  have hperm : (starts.reverse.insertionSort R).reverse.Perm starts :=
    (reverse_perm _).trans ((perm_insertionSort R _).trans (reverse_perm _))
  refine ⟨starts, (starts.reverse.insertionSort R).reverse, hmap, hlt, hperm, ?_, ?_⟩
  · have hnodup : (starts.reverse.insertionSort R).reverse.Nodup :=
      hperm.nodup_iff.mpr (hlt.imp ne_of_lt)
    refine ((pairwise_reverse.mpr (pairwise_insertionSort R _)).and hnodup).imp fun {a b} hab => ?_
    exact (Prod.Lex.toLex_le_toLex.mp hab.1).imp_right fun h =>
      ⟨map_injective_iff.mpr (fun _ _ => UInt8.toNat_inj.mp) h.1, lt_of_le_of_ne h.2 hab.2⟩
  · rw [sortStart, hopen]
    simp only [readAll_of_le hlen, hmk, putsBuf_cut hnul, foldl_sortInsert_one hcmp]
    rw [unlines, flatMap_map]

/-- Three lines, the last without its end. -/
theorem sort_sorts_three : ∃ starts offs : List Nat,
    starts.map (lineAt (text "b\na\nb")) = textLines (text "b\na\nb") ∧ starts.Pairwise (· < ·) ∧
    offs.Perm starts ∧ offs.Pairwise (SortsBefore (text "b\na\nb")) ∧
    sortStart (fun _ => none) ⟨text "b\na\nb", [2]⟩ [] =
      ⟨unlines newline (offs.map (lineAt (text "b\na\nb"))), 0⟩ :=
  @sort_sorts _ _ ⟨text "b\na\nb", [2]⟩ _ rfl (by decide) (by decide) (by decide +kernel)

end AliOS
