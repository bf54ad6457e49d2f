import Mathlib.Data.List.Destutter
import AliOS.User

/-!
# AliOS.User.Filters

The programs that pass on lines of their input: `grep`, `tail`, `uniq` and `cut`
(`user/grep.c` and so on).  `grep` cuts a line to its first 511 characters, does not read on
behind 4095 bytes, and takes what follows the last newline for one more line; `tail` counts
newlines and not lines; `uniq` and `cut` send a line through their buffer in pieces, `uniq` takes
an empty line at the beginning for a repeated one, and `cut` does not come to a last line that no
newline ends.  The main results say of which inputs each of them prints what it should.
-/

namespace AliOS

open Lib List

/-! ## grep -/

def grepContains (pat : CStr) (str : List UInt8) : Bool :=
  (List.range (str.length + 1 - pat.length)).any fun i =>
    (List.range pat.length).all fun j => str.getD (i + j) 0 == pat.get j

/-- What is printed of a line. -/
def grepLine (pat : CStr) (line : List UInt8) : List UInt8 :=
  if grepContains pat line then putsBuf line ++ [newline] else []

/-- The loop body, with the characters in `line` and the output. -/
def grepPut (pat : CStr) (st : List UInt8 × List UInt8) (c : UInt8) : List UInt8 × List UInt8 :=
  if c = newline then ([], st.2 ++ grepLine pat st.1)
  else if st.1.length < 511 then (st.1 ++ [c], st.2)
  else st

def grepStart (files : CStr → Option Input) (stdin : Input) (argv : List CStr) : Ran :=
  match argv with
  | _ :: pat :: args =>
    match inputOf files stdin args.head? with
    | none => ⟨cannotOpen "grep" args.head?, 1⟩
    | some inp =>
      -- a newline behind the input flushes the last line
      ⟨((readAll 4095 [] inp ++ [newline]).foldl (grepPut pat) ([], [])).2, 0⟩
  | _ => ⟨text "usage: grep <pattern> [file]\n", 1⟩

section

variable {files : CStr → Option Input} {stdin inp : Input} {name pat : CStr} {args : List CStr}

theorem grepContains_iff {str : List UInt8} : grepContains pat str ↔ pat.chars <:+: str := by
  simp only [grepContains, List.any_eq_true, mem_range, List.all_eq_true, beq_iff_eq]
  constructor
  · rintro ⟨i, hi, hall⟩
    have hpart : pat.chars = (str.drop i).take pat.length := by
      refine ext_getElem (by simp [CStr.length] at hi ⊢; omega) fun j hj hj' => ?_
      have hget := hall j hj
      rw [CStr.get_eq_getElem hj, List.getD,
        List.getElem?_eq_getElem (by simp at hj'; omega)] at hget
      simpa using hget.symm
    rw [hpart]
    exact (List.take_prefix _ _).isInfix.trans (drop_suffix _ _).isInfix
  · rintro ⟨a, b, rfl⟩
    refine ⟨a.length, by simp [CStr.length]; omega, fun j hj => ?_⟩
    rw [CStr.get_eq_getElem hj, append_assoc, List.getD, List.getElem?_append_right (by omega),
      Nat.add_sub_cancel_left, List.getElem?_append_left hj, List.getElem?_eq_getElem hj]
    rfl

theorem flatMap_grepLine {ls : List (List UInt8)} (hnul : ∀ l ∈ ls, ∀ c ∈ l, c ≠ 0) :
    ls.flatMap (grepLine pat) = unlines newline (ls.filter (pat.chars <:+: ·)) := by
  induction ls with
  | nil => rfl
  | cons l ls ih =>
    obtain ⟨hl, hls⟩ := forall_mem_cons.mp hnul
    rw [flatMap_cons, ih hls, filter_cons, grepLine, putsBuf, CStr.chars_ofBytes hl]
    by_cases hc : pat.chars <:+: l
    · rw [if_pos (grepContains_iff.mpr hc), if_pos (decide_eq_true hc)]
      rfl
    · rw [if_neg (hc ∘ grepContains_iff.mp), if_neg (by simpa using hc)]
      rfl

/-- The lines that are printed of a text when `cap` bytes of it are read. -/
def grepped (pat : CStr) (cap : Nat) (s : List UInt8) : List (List UInt8) :=
  (((s.take cap).splitOnP (· == newline)).map (take 511)).filter (pat.chars <:+: ·)

/-- The lines with the pattern fit `line` and lie in the first `cap` bytes. -/
def GrepFits (pat : CStr) (cap : Nat) (s : List UInt8) : Prop :=
  ∀ ls l ls', textLines s = ls ++ l :: ls' → pat.chars <:+: l →
    l.length ≤ 511 ∧ (unlines newline ls).length + l.length ≤ cap

/-- Characters go to `line` as long as there is room. -/
theorem foldl_grepPut {l w : List UInt8} (hl : ∀ c ∈ l, (c == newline) = false)
    (hw : w.length ≤ 511) (out : List UInt8) :
    l.foldl (grepPut pat) (w, out) = ((w ++ l).take 511, out) := by
  induction l generalizing w with
  | nil => simp [List.take_of_length_le hw]
  | cons c l ih =>
    obtain ⟨hc, hl⟩ := forall_mem_cons.mp hl
    rw [foldl_cons, grepPut, if_neg (by simpa using hc)]
    by_cases hroom : w.length < 511
    · rw [if_pos hroom, ih hl (by simp; omega), append_assoc, singleton_append]
    · rw [if_neg hroom, ih hl hw, take_append_of_le_length (by omega),
        take_append_of_le_length (by omega)]

theorem foldl_grepPut_text (s out : List UInt8) :
    ((s ++ [newline]).foldl (grepPut pat) ([], out)).2 =
      out ++ ((s.splitOnP (· == newline)).map (take 511)).flatMap (grepLine pat) := by
  induction s using linesInduction (· == newline) generalizing out with
  | last l hl =>
    rw [foldl_append, foldl_grepPut hl (by simp), splitOnP_eq_singleton hl]
    simp [grepPut]
  | line l c t hl hc ih =>
    obtain rfl : c = newline := by simpa using hc
    rw [append_assoc, foldl_append, foldl_grepPut hl (by simp), cons_append, foldl_cons, grepPut,
      if_pos rfl, ih, splitOnP_append_cons_of_forall_mem hl _ hc]
    simp

theorem grepStart_eq (hin : inputOf files stdin args.head? = some inp)
    (hnul : ∀ c ∈ inp.bytes, c ≠ 0) : grepStart files stdin (name :: pat :: args) =
      ⟨unlines newline (grepped pat 4095 inp.bytes), 0⟩ := by
  have hread : readAll 4095 [] inp = inp.bytes.take 4095 := readAll_eq inp (Nat.zero_le _)
  simp only [grepStart, hin, hread, foldl_grepPut_text]
  rw [flatMap_grepLine]
  · rfl
  · intro l hl c hc
    obtain ⟨l', hl', rfl⟩ := mem_map.mp hl
    exact hnul c (mem_of_mem_take (mem_of_mem_splitOnP hl' c (mem_of_mem_take hc)).1)

/-- A line that the first `cap` bytes end with. -/
theorem grepped_stop {l t : List UInt8} {cap : Nat} (hl : ∀ c ∈ l, (c == newline) = false)
    (h : cap ≤ l.length ∨ t = []) :
    grepped pat cap (l ++ t) = [l.take (min 511 cap)].filter (pat.chars <:+: ·) := by
  have htake : (l ++ t).take cap = l.take cap := by
    rcases h with h | rfl
    · exact take_append_of_le_length h
    · rw [append_nil]
  rw [grepped, htake, splitOnP_eq_singleton fun c hc => hl c (mem_of_mem_take hc), map_singleton,
    take_take]

theorem grepped_line {l t : List UInt8} {cap : Nat} (hl : ∀ c ∈ l, (c == newline) = false) :
    grepped pat (l.length + 1 + cap) (l ++ newline :: t) =
      [l.take 511].filter (pat.chars <:+: ·) ++ grepped pat cap t := by
  have htake : (l ++ newline :: t).take (l.length + 1 + cap) = l ++ newline :: t.take cap := by
    rw [take_append, take_of_length_le (by omega),
      show l.length + 1 + cap - l.length = cap + 1 by omega, take_succ_cons]
  rw [grepped, htake, splitOnP_append_cons_of_forall_mem hl _ (by simp), map_cons,
    ← singleton_append, filter_append]
  rfl

/-- What is printed of a line is the line iff it fits. -/
theorem filter_take_eq {l : List UInt8} {k : Nat} :
    [l.take k].filter (pat.chars <:+: ·) = [l].filter (pat.chars <:+: ·) ↔
      (pat.chars <:+: l → l.length ≤ k) := by
  have hsub : pat.chars <:+: l.take k → pat.chars <:+: l := fun h =>
    h.trans (List.take_prefix _ _).isInfix
  by_cases hl : pat.chars <:+: l
  · by_cases ht : pat.chars <:+: l.take k
    · simp [hl, ht]
    · have hlt : ¬l.length ≤ k := fun hle => ht (by rwa [take_of_length_le hle])
      simp [hl, ht, hlt]
  · simp [hl, mt hsub hl]

theorem length_filter_take_le (l : List UInt8) (k : Nat) :
    ([l.take k].filter (pat.chars <:+: ·)).length ≤ ([l].filter (pat.chars <:+: ·)).length := by
  by_cases ht : pat.chars <:+: l.take k
  · simp [ht, ht.trans (List.take_prefix _ _).isInfix]
  · simp [ht]

/-- No more lines are printed than there are with the pattern. -/
theorem length_grepped_le (hpat : pat.chars ≠ []) (cap : Nat) (s : List UInt8) :
    (grepped pat cap s).length ≤ ((textLines s).filter (pat.chars <:+: ·)).length := by
  induction s using linesInduction (· == newline) generalizing cap with
  | last l hl =>
    have hstop := @grepped_stop pat l [] cap hl (.inr rfl)
    rw [append_nil] at hstop
    rw [hstop, textLines, lines_of_forall hl]
    cases l with
    | nil => simp [hpat]
    | cons c l => exact length_filter_take_le _ _
  | line l c t hl hc ih =>
    obtain rfl : c = newline := by simpa using hc
    have hlines : textLines (l ++ newline :: t) = [l] ++ textLines t := lines_append_cons hl hc
    rw [hlines, filter_append, length_append]
    by_cases hcap : cap ≤ l.length
    · rw [grepped_stop hl (.inl hcap)]
      exact Nat.le_add_right_of_le (length_filter_take_le _ _)
    · obtain ⟨k, rfl⟩ : ∃ k, cap = l.length + 1 + k := ⟨cap - l.length - 1, by omega⟩
      rw [grepped_line hl, length_append]
      exact Nat.add_le_add (length_filter_take_le _ _) (ih k)

theorem grepFits_cons {l t : List UInt8} {cap : Nat} (hl : ∀ c ∈ l, (c == newline) = false) :
    GrepFits pat cap (l ++ newline :: t) ↔
      (pat.chars <:+: l → l.length ≤ 511 ∧ l.length ≤ cap) ∧
      ∀ ls l' ls', textLines t = ls ++ l' :: ls' → pat.chars <:+: l' → l'.length ≤ 511 ∧
        l.length + 1 + ((unlines newline ls).length + l'.length) ≤ cap := by
  rw [GrepFits, textLines, lines_append_cons hl (by simp)]
  constructor
  · intro h
    refine ⟨fun hpat => by simpa [unlines] using h [] l _ rfl hpat, fun ls l' ls' heq hpat => ?_⟩
    have hfit := h (l :: ls) l' ls' (by rw [← textLines, heq]; rfl) hpat
    simp only [unlines, flatMap_cons, length_append, length_singleton] at hfit ⊢
    omega
  · rintro ⟨hfirst, hrest⟩ ls l' ls' heq hpat
    cases ls with
    | nil =>
      obtain ⟨rfl, -⟩ := cons.inj heq
      simpa [unlines] using hfirst hpat
    | cons x ls =>
      obtain ⟨rfl, htail⟩ := cons.inj heq
      have hfit := hrest ls l' ls' htail hpat
      simp only [unlines, flatMap_cons, length_append, length_singleton] at hfit ⊢
      omega

/-- Behind the bytes that are read there may be no line with the pattern. -/
theorem fits_beyond {l t : List UInt8} {cap : Nat} (hcap : cap ≤ l.length) :
    (∀ ls l' ls', textLines t = ls ++ l' :: ls' → pat.chars <:+: l' → l'.length ≤ 511 ∧
        l.length + 1 + ((unlines newline ls).length + l'.length) ≤ cap) ↔
      (textLines t).filter (pat.chars <:+: ·) = [] := by
  rw [filter_eq_nil_iff]
  constructor
  · intro h l' hl' hpat
    obtain ⟨ls, ls', heq⟩ := append_of_mem hl'
    have := (h ls l' ls' heq (by simpa using hpat)).2
    omega
  · intro h ls l' ls' heq hpat
    exact absurd (decide_eq_true hpat) (h l' (by rw [heq]; simp))

/-- A line and the rest are right together iff each of them is. -/
theorem line_append_grepped_eq_iff {l t : List UInt8} {k : Nat} :
    [l.take 511].filter (pat.chars <:+: ·) ++ grepped pat k t =
        [l].filter (pat.chars <:+: ·) ++ (textLines t).filter (pat.chars <:+: ·) ↔
      (pat.chars <:+: l → l.length ≤ 511) ∧
        grepped pat k t = (textLines t).filter (pat.chars <:+: ·) := by
  rw [← filter_take_eq]
  refine ⟨fun h => ?_, fun h => by rw [h.1, h.2]⟩
  refine append_inj h ?_
  by_cases hpat : pat.chars = []
  · simp [hpat]
  · -- neither part can be shorter than it should be
    have hlen := congrArg length h
    have hfirst := @length_filter_take_le pat l 511
    have hrest := length_grepped_le hpat k t
    rw [length_append, length_append] at hlen
    omega

/-- What is printed is right iff every line with the pattern is printed whole and no line is
printed behind the last newline. -/
theorem grepped_eq_iff (cap : Nat) (s : List UInt8) :
    grepped pat cap s = (textLines s).filter (pat.chars <:+: ·) ↔
      GrepFits pat cap s ∧ (pat.chars ≠ [] ∨ ended (· == newline) s = false ∨ cap < s.length) := by
  induction s using linesInduction (· == newline) generalizing cap with
  | last l hl =>
    have hstop := @grepped_stop pat l [] cap hl (.inr rfl)
    rw [append_nil] at hstop
    rw [hstop, GrepFits, textLines, lines_of_forall hl]
    by_cases hnil : l = []
    · simp [hnil, flush, ended]
    · rw [flush_of_ne hnil, filter_take_eq, ended_of_forall hl hnil, Nat.le_min]
      refine ⟨fun h => ⟨fun ls l' ls' heq hpat => ?_, by simp⟩, fun h hpat => ?_⟩
      · obtain ⟨rfl, rfl, -⟩ := (by simpa [singleton_eq_append_iff] using heq :
          ls = [] ∧ l' = l ∧ ls' = [])
        simpa [unlines] using h hpat
      · simpa [unlines] using h.1 [] l [] rfl hpat
  | line l c t hl hc ih =>
    obtain rfl : c = newline := by simpa using hc
    have hended : ended (· == newline) (l ++ newline :: t) = ended (· == newline) t :=
      ended_append_cons hc
    have hlines : textLines (l ++ newline :: t) = [l] ++ textLines t := lines_append_cons hl hc
    rw [grepFits_cons hl, hlines, filter_append, hended]
    by_cases hcap : cap ≤ l.length
    · have hlong : cap < (l ++ newline :: t).length := by simp; omega
      rw [grepped_stop hl (.inl hcap), fits_beyond hcap, ← Nat.le_min, ← filter_take_eq]
      refine ⟨fun h => ?_, fun h => by rw [h.1.1, h.1.2, append_nil]⟩
      have hle := @length_filter_take_le pat l (min 511 cap)
      have hnil : (textLines t).filter (pat.chars <:+: ·) = [] := by
        rw [h, length_append] at hle
        exact length_eq_zero_iff.mp (by omega)
      rw [hnil, append_nil] at h
      exact ⟨⟨h, hnil⟩, .inr (.inr hlong)⟩
    · obtain ⟨k, rfl⟩ : ∃ k, cap = l.length + 1 + k := ⟨cap - l.length - 1, by omega⟩
      rw [grepped_line hl, line_append_grepped_eq_iff, ih, GrepFits]
      simp only [length_append, length_cons, Nat.add_le_add_iff_left, and_assoc]
      refine and_congr (forall_congr' fun _ => by omega) (and_congr Iff.rfl ?_)
      rw [show l.length + 1 + k < l.length + (t.length + 1) ↔ k < t.length by omega]

/-- **What `grep` prints** is right iff every line with the pattern has at most 511 characters
and ends within the first 4095 bytes, and no empty line is made up behind the last newline. -/
theorem grep_iff (hin : inputOf files stdin args.head? = some inp)
    (hnul : ∀ c ∈ inp.bytes, c ≠ 0) :
    grepStart files stdin (name :: pat :: args) =
        ⟨unlines newline ((textLines inp.bytes).filter (pat.chars <:+: ·)), 0⟩ ↔
      GrepFits pat 4095 inp.bytes ∧ (pat.chars ≠ [] ∨ ended (· == newline) inp.bytes = false ∨
        4095 < inp.bytes.length) := by
  have hprinted : ∀ l ∈ grepped pat 4095 inp.bytes, newline ∉ l := by
    intro l hl hmem
    obtain ⟨l', hl', rfl⟩ := mem_map.mp (mem_of_mem_filter hl)
    simpa using (mem_of_mem_splitOnP hl' _ (mem_of_mem_take hmem)).2
  rw [grepStart_eq hin hnul, Ran.mk.injEq, and_iff_left rfl, ← grepped_eq_iff]
  exact unlines_inj hprinted fun l hl => not_mem_of_mem_lines (mem_of_mem_filter hl)

end

theorem grep_two_lines : grepStart (fun _ => none) ⟨[97, 98, 10, 99], [1, 2]⟩
    [.ascii "grep", .ascii "b"] = ⟨[97, 98, 10], 0⟩ := by
  refine (@grep_iff _ ⟨[97, 98, 10, 99], [1, 2]⟩ _ _ (.ascii "b") [] rfl (by simp)).mpr
    ⟨fun ls l ls' heq _ => ?_, .inl (by decide)⟩
  have hlen : 5 = (unlines newline (ls ++ l :: ls')).length := by
    rw [← heq]
    decide
  simp only [unlines, flatMap_append, flatMap_cons, length_append] at hlen ⊢
  omega

/-- A line of 512 characters is cut. -/
theorem grep_cuts_line : ∃ inp : Input, (∀ c ∈ inp.bytes, c ≠ 0) ∧
    grepStart (fun _ => none) inp [.ascii "grep", .ascii "a"] ≠
      ⟨unlines newline ((textLines inp.bytes).filter ((CStr.ascii "a").chars <:+: ·)), 0⟩ := by
  refine ⟨⟨List.replicate 512 97 ++ [newline], []⟩, by decide +kernel, ?_⟩
  rw [grepStart]
  simp only [List.head?_nil, inputOf]
  decide +kernel

/-! ## tail -/

/-- The `-n N` and the file among the arguments. -/
def tailArgs (ub : CStr → Int) (limit : Int) (fname : Option CStr) :
    List CStr → Int × Option CStr
  | [] => (limit, fname)
  | [arg] => (limit, if arg = .ascii "-n" then fname else some arg)
  | arg :: next :: argv =>
    if arg = .ascii "-n" then tailArgs ub (parseInt ub next) fname argv
    else tailArgs ub limit (some arg) (next :: argv)

/-- The loop from the end of `ibuf`: `start`. -/
def tailFind (ibuf : List UInt8) (limit : Int) (newlines : Nat) : Nat → Nat
  | 0 => ibuf.length
  | i + 1 =>
    let newlines := if ibuf.getD i 0 = newline then newlines + 1 else newlines
    if ibuf.getD i 0 = newline ∧ newlines = limit then i + 1
    else if i = 0 then 0
    else tailFind ibuf limit newlines i

def tailStart (ub : CStr → Int) (files : CStr → Option Input) (stdin : Input)
    (argv : List CStr) : Ran :=
  let (limit, fname) := tailArgs ub 10 none argv.tail
  match inputOf files stdin fname with
  | none => ⟨cannotOpen "tail" fname, 1⟩
  | some inp =>
    let ibuf := readAll 4095 [] inp
    let start := tailFind ibuf limit 0 ibuf.length
    ⟨ibuf.drop start ++ if ibuf ≠ [] ∧ ibuf.getLast? ≠ some newline then [newline] else [], 0⟩

section

variable {b : List UInt8} {limit : Int} {n i : Nat}

theorem tailFind_succ (hi : i < b.length) : tailFind b limit n (i + 1) =
    if b[i] = newline ∧ limit = n + 1 then i + 1
    else if i = 0 then 0
    else tailFind b limit (n + [b[i]].count newline) i := by
  by_cases hc : b[i] = newline <;> simp [tailFind, List.getElem?_eq_getElem hi, hc, eq_comm]

/-- The place is behind the newline with which there are `limit` of them. -/
theorem tailFind_found (hi : i ≤ b.length) (hlo : n < limit)
    (hhi : limit ≤ n + (b.take i).count newline) :
    tailFind b limit n i ≤ i ∧ ended (· == newline) (b.take (tailFind b limit n i)) ∧
      limit = n + 1 + ((b.take i).drop (tailFind b limit n i)).count newline := by
  induction i generalizing n with
  | zero => simp at hhi; omega
  | succ i ih =>
    have htake := take_succ_eq_append_getElem hi
    rw [htake, count_append] at hhi
    rw [tailFind_succ hi]
    split
    · rename_i hc
      rw [drop_eq_nil_of_le (by simp), htake, hc.1]
      simp [ended, hc.2]
    · have hone : [b[i]].count newline = if b[i] = newline then 1
          else 0 := by simp [count_singleton]
      have hpos : i ≠ 0 := by
        rintro rfl
        grind
      obtain ⟨hle, hend, hcount⟩ :=
        ih (n := n + [b[i]].count newline) (by omega) (by grind) (by omega)
      rw [if_neg hpos, htake, drop_append_of_le_length (by simp; omega), count_append]
      exact ⟨by omega, hend, by omega⟩

/-- Or there are not so many. -/
theorem tailFind_all (hi : i ≤ b.length) (h0 : 0 < i)
    (h : limit ≤ n ∨ n + (b.take i).count newline < limit) :
    tailFind b limit n i = 0 := by
  induction i generalizing n with
  | zero => omega
  | succ i ih =>
    rw [take_succ_eq_append_getElem hi, count_append] at h
    rw [tailFind_succ hi, if_neg]
    · split
      · rfl
      · exact ih (by omega) (by omega) (by omega)
    · rintro ⟨hc, rfl⟩
      rw [hc, count_singleton_self] at h
      omega

end

section

variable {ub : CStr → Int} {files : CStr → Option Input} {stdin inp : Input} {name p : CStr}
  {file : Option CStr}

theorem tailArgs_number (hfile : file ≠ some (.ascii "-n")) :
    tailArgs ub 10 none (.ascii "-n" :: p :: file.toList) = (parseInt ub p, file) := by
  cases file with
  | none => rfl
  | some f => simp [tailArgs, show f ≠ .ascii "-n" from fun hf => hfile (hf ▸ rfl)]

/-- Whole lines are printed: those behind a place at the beginning of one. -/
theorem tailStart_eq (hfile : file ≠ some (.ascii "-n")) (hin : inputOf files stdin file = some inp)
    (hlen : inp.bytes.length ≤ 4095) {s : Nat}
    (hs : tailFind inp.bytes (parseInt ub p) 0 inp.bytes.length = s)
    (hend : ended (· == newline) (inp.bytes.take s)) :
    tailStart ub files stdin (name :: .ascii "-n" :: p :: file.toList) =
      ⟨unlines newline (textLines (inp.bytes.drop s)), 0⟩ := by
  have hsame : ended (· == newline) (inp.bytes.drop s) = ended (· == newline) inp.bytes := by
    rw [← ended_append hend, take_append_drop]
  have hnl : inp.bytes ≠ [] ∧ inp.bytes.getLast? ≠ some newline ↔
      ended (· == newline) inp.bytes = false := by
    rcases eq_nil_or_concat inp.bytes with h | ⟨l, c, h⟩ <;> simp [ended, h]
  simp only [tailStart, tail_cons, tailArgs_number hfile, hin, readAll_of_le hlen, hs,
    unlines_lines, hsame, hnl]
  cases ended (· == newline) inp.bytes <;> rfl

/-- **What `tail -n N` prints** of an input that fits its buffer. -/
theorem tail_iff (hfile : file ≠ some (.ascii "-n")) (hin : inputOf files stdin file = some inp)
    (hlen : inp.bytes.length ≤ 4095) :
    tailStart ub files stdin (name :: .ascii "-n" :: p :: file.toList) =
        ⟨unlines newline ((textLines inp.bytes).drop ((textLines inp.bytes).length - numeral p)),
          0⟩ ↔
      if 1 ≤ parseInt ub p ∧ parseInt ub p ≤ inp.bytes.count newline then
        parseInt ub p = numeral p ∧ ended (· == newline) inp.bytes = false
      else (textLines inp.bytes).length ≤ numeral p := by
  obtain ⟨s, hs⟩ : ∃ s, tailFind inp.bytes (parseInt ub p) 0 inp.bytes.length = s := ⟨_, rfl⟩
  have hnum : numeral p < 2 ^ 31 → parseInt ub p = numeral p := fun h => if_pos h
  have hlines : ∀ t : List UInt8, (textLines t).length = t.count newline +
      if ended (· == newline) t then 0 else 1 := length_lines newline
  -- the lines printed are the last ones
  have hlast (hend : ended (· == newline) (inp.bytes.take s) = true) :
      (tailStart ub files stdin (name :: .ascii "-n" :: p :: file.toList) =
        ⟨unlines newline ((textLines inp.bytes).drop ((textLines inp.bytes).length - numeral p)),
          0⟩ ↔
      (inp.bytes.drop s).count newline + (if ended (· == newline) inp.bytes then 0 else 1) =
        min (numeral p) (textLines inp.bytes).length) := by
    have happ := lines_append (t := inp.bytes.drop s) hend
    have hsame := ended_append (t := inp.bytes.drop s) hend
    rw [take_append_drop] at happ hsame
    rw [tailStart_eq hfile hin hlen hs hend, Ran.mk.injEq, and_iff_left rfl,
      unlines_inj (fun l => not_mem_of_mem_lines) fun l hl =>
        not_mem_of_mem_lines (mem_of_mem_drop hl), hsame,
      ← hlines, eq_drop_iff ⟨_, happ.symm⟩]
  split
  · obtain ⟨-, hend, hcount⟩ := @tailFind_found inp.bytes (parseInt ub p) 0 _ le_rfl (by omega) (by
      rw [take_length]
      omega)
    rw [hs, take_length] at hcount
    rw [hs] at hend
    rw [hlast hend, hlines]
    have hle : inp.bytes.count newline ≤ inp.bytes.length := count_le_length
    cases ended (· == newline) inp.bytes
    · simp
      omega
    · simp
      omega
  · have hzero : s = 0 := by
      rcases Nat.eq_zero_or_pos inp.bytes.length with h0 | hpos
      · rw [← hs, h0]
        exact h0
      · rw [← hs]
        exact tailFind_all le_rfl hpos (by rw [take_length]; omega)
    rw [hlast (by rw [hzero]; rfl), hzero, drop_zero, hlines]
    omega

end

theorem tail_unended : tailStart (fun _ => 0) (fun _ => none) ⟨[97, 10, 98], [1]⟩
    [.ascii "tail", .ascii "-n", .ascii "1"] = ⟨[98, 10], 0⟩ :=
  (@tail_iff _ _ ⟨[97, 10, 98], [1]⟩ _ _ (.ascii "1") none (by simp) rfl (by decide)).mpr
    (by decide)

/-- The newline at the end is taken for the one before the last line. -/
theorem tail_prints_nothing : ∃ inp : Input, inp.bytes.length ≤ 4095 ∧
    tailStart (fun _ => 0) (fun _ => none) inp [.ascii "tail", .ascii "-n", .ascii "1"] ≠
      ⟨unlines newline ((textLines inp.bytes).drop ((textLines inp.bytes).length - 1)), 0⟩ := by
  refine ⟨⟨[97, 10, 98, 10], []⟩, by decide, ?_⟩
  rw [show [CStr.ascii "tail", .ascii "-n", .ascii "1"] =
    .ascii "tail" :: .ascii "-n" :: .ascii "1" ::
    (none : Option CStr).toList from rfl, tailStart_eq (by simp) rfl (by decide) rfl (by decide)]
  decide

/-! ## uniq -/

/-- The end of a line, with the string in `prev` and the output. -/
def uniqLine (st : CStr × List UInt8) (cur : List UInt8) : CStr × List UInt8 :=
  if CStr.ofBytes cur = st.1 then st else (CStr.ofBytes cur, st.2 ++ (putsBuf cur ++ [newline]))

/-- The loop body, with the characters in `cur`. -/
def uniqPut (st : List UInt8 × CStr × List UInt8) (c : UInt8) : List UInt8 × CStr × List UInt8 :=
  if c = newline ∨ 511 ≤ st.1.length then ([], uniqLine st.2 st.1) else (st.1 ++ [c], st.2)

def uniqStart (files : CStr → Option Input) (stdin : Input) (argv : List CStr) : Ran :=
  match inputOf files stdin argv.tail.head? with
  | none => ⟨text "uniq: cannot open file\n", 1⟩
  | some inp =>
    let (cur, st) := eachByte uniqPut ([], .ascii "", []) inp
    ⟨(if cur ≠ [] then uniqLine st cur else st).2, 0⟩

section

variable {files : CStr → Option Input} {stdin inp : Input} {argv : List CStr}

theorem foldl_uniqLine {ls : List (List UInt8)} (hnul : ∀ l ∈ ls, ∀ c ∈ l, c ≠ 0) (prev : CStr)
    (out : List UInt8) :
    ∃ ls', ls.destutter' (· ≠ ·) prev.chars = prev.chars :: ls' ∧
      (ls.foldl uniqLine (prev, out)).2 = out ++ unlines newline ls' := by
  induction ls generalizing prev out with
  | nil => exact ⟨[], rfl, by simp [unlines]⟩
  | cons l ls ih =>
    obtain ⟨hl, hls⟩ := forall_mem_cons.mp hnul
    have hchars := CStr.chars_ofBytes hl
    rw [foldl_cons, uniqLine]
    by_cases heq : CStr.ofBytes l = prev
    · rw [if_pos heq, List.destutter'_cons_neg _ (by rw [← heq, hchars]; simp)]
      exact ih hls prev out
    · have hne : prev.chars ≠ l := fun h => heq (CStr.ext (hchars.trans h.symm))
      obtain ⟨ls', hls', hout⟩ := ih hls (CStr.ofBytes l) (out ++ (putsBuf l ++ [newline]))
      rw [hchars] at hls'
      refine ⟨l :: ls', ?_, ?_⟩
      · rw [List.destutter'_cons_pos _ hne, hls']
      · rw [if_neg heq, hout, putsBuf, hchars]
        simp [unlines]

/-- The lines go through `cur` in pieces. -/
theorem uniqStart_eq (hin : inputOf files stdin argv.tail.head? = some inp) : ∃ ps p,
    (inp.bytes.splitOnP (· == newline)).flatMap (fills 511) = ps ++ [p] ∧
      uniqStart files stdin argv = ⟨((ps ++ flush p).foldl uniqLine (.ascii "", [])).2, 0⟩ := by
  have hput : ∀ w st c, uniqPut (w, st) c =
      if c == newline ∨ 511 ≤ w.length then ([], uniqLine st w) else (w ++ [c], st) := by
    simp [uniqPut]
  obtain ⟨ps, p, hps, hfold⟩ := foldl_frame hput inp.bytes
  refine ⟨ps, p, hps, ?_⟩
  rw [uniqStart, hin]
  dsimp only
  rw [eachByte_eq, hfold]
  by_cases hp : p = []
  · simp [hp]
  · simp [hp, flush]

/-- Every line has a copy. -/
theorem mem_destutter_ne {l : List UInt8} {ls : List (List UInt8)} (h : l ∈ ls) :
    l ∈ ls.destutter (· ≠ ·) := by
  cases ls with
  | nil => exact h
  | cons a ls =>
    rw [List.destutter_cons']
    induction ls generalizing a with
    | nil => exact h
    | cons b ls ih =>
      rw [List.destutter'_cons]
      split <;> grind

/-- **`uniq` drops repeated lines and no others exactly if** no line has more than 511 characters
and the first one is not empty. -/
theorem uniq_iff (hin : inputOf files stdin argv.tail.head? = some inp)
    (hnul : ∀ c ∈ inp.bytes, c ≠ 0) :
    uniqStart files stdin argv = ⟨unlines newline ((textLines inp.bytes).destutter (· ≠ ·)), 0⟩ ↔
      (∀ l ∈ textLines inp.bytes, l.length ≤ 511) ∧ (textLines inp.bytes).head? ≠ some [] := by
  obtain ⟨ps, p, hps, hrun⟩ := uniqStart_eq hin
  have hpiece : ∀ q ∈ ps ++ flush p, q ∈ (inp.bytes.splitOnP (· == newline)).flatMap
      (fills 511) := by
    rw [hps, flush]
    split <;> simp +contextual
  obtain ⟨ls', hls', hout⟩ := foldl_uniqLine
    (fun q hq c hc => hnul c ((mem_of_mem_flatMap_fills (hpiece q hq)).2 c hc).1) (.ascii "") []
  rw [show (CStr.ascii "").chars = [] from rfl] at hls'
  rw [hrun, hout, nil_append, Ran.mk.injEq, and_iff_left rfl]
  by_cases hline : ∀ l ∈ textLines inp.bytes, l.length ≤ 511
  · have hlines : textLines inp.bytes = ps ++ flush p := by
      rw [flatMap_fills_of_le (by rw [splitOnP_eq]; simpa [or_imp, forall_and] using hline)] at hps
      rw [textLines, lines, hps, getLastD_concat, dropLast_concat]
    rw [and_iff_right hline]
    rw [← hlines] at hls'
    cases hb : textLines inp.bytes with
    | nil =>
      rw [hb] at hls'
      cases hls'
      simp
    | cons l ls =>
      rw [hb] at hls'
      rw [List.destutter_cons', List.head?_cons]
      by_cases hl : l = []
      · -- the first line looks like one that was there before
        rw [hl, List.destutter'_cons_neg _ (by simp)] at hls'
        rw [hl, hls']
        simp [unlines]
      · rw [List.destutter'_cons_pos (R := (· ≠ ·)) _ (Ne.symm hl)] at hls'
        simp [(List.cons.inj hls').2, hl]
  · -- what is printed are pieces, and these are short
    refine iff_of_false (fun heq => hline fun l hl => ?_) fun h => hline h.1
    have hsub : ∀ q ∈ ls', q ∈ ps ++ flush p := by
      have hsub := destutter'_sublist (ps ++ flush p) (· ≠ ·) []
      rw [hls'] at hsub
      exact fun q hq => hsub.of_cons_cons.subset hq
    have hshort := fun q hq => mem_of_mem_flatMap_fills (hpiece q (hsub q hq))
    rw [unlines_inj (fun q hq hnl => by simpa using ((hshort q hq).2 _ hnl).2) fun l hl =>
      not_mem_of_mem_lines ((destutter_sublist _ _).subset hl)] at heq
    exact (hshort l (heq ▸ mem_destutter_ne hl)).1

end

theorem uniq_two_runs : uniqStart (fun _ => none) ⟨[97, 10, 97, 10, 98], [3]⟩ [.ascii "uniq"] =
    ⟨[97, 10, 98, 10], 0⟩ :=
  (@uniq_iff _ ⟨[97, 10, 97, 10, 98], [3]⟩ _ [.ascii "uniq"] rfl (by simp)).mpr (by decide)

/-- An empty line at the beginning is lost. -/
theorem uniq_drops_empty : ∃ inp : Input, (∀ c ∈ inp.bytes, c ≠ 0) ∧
    uniqStart (fun _ => none) inp [.ascii "uniq"] ≠
      ⟨unlines newline ((textLines inp.bytes).destutter (· ≠ ·)), 0⟩ := by
  refine ⟨⟨[10, 97, 10], []⟩, by simp, ?_⟩
  simp only [uniqStart, inputOf, tail_cons, List.head?_nil, eachByte_eq]
  decide

/-! ## cut -/

/-- The field and the delimiter that `-f` and `-d` give. -/
def cutArgs (ub : CStr → Int) (field : Int) (delim : UInt8) : List CStr → Int × UInt8
  | [] => (field, delim)
  | arg :: argv =>
    if arg.get 0 = 45 ∧ arg.get 1 = 102 then
      if arg.get 2 ≠ 0 then cutArgs ub (parseInt ub (arg.drop 2)) delim argv
      else
        match argv with
        | [] => (1, delim)
        | next :: argv => cutArgs ub (parseInt ub next) delim argv
    else if arg.get 0 = 45 ∧ arg.get 1 = 100 then
      if arg.get 2 ≠ 0 then cutArgs ub field (arg.get 2) argv
      else
        match argv with
        | [] => (field, tab)
        | next :: argv => cutArgs ub field (next.get 0) argv
    else cutArgs ub field delim argv

/-- `while (*p && f < field) { if (*p == delim) f++; p++; }` -/
def cutSeek (field : Int) (delim : UInt8) (f : Int) : List UInt8 → Int × List UInt8
  | [] => (f, [])
  | c :: p => if f < field then cutSeek field delim (if c = delim then f + 1 else f) p
      else (f, c :: p)

/-- The field at `p`, up to the next delimiter or the end. -/
def cutPrint (field : Int) (delim : UInt8) (fp : Int × List UInt8) : List UInt8 :=
  if fp.1 = field then fp.2.takeWhile (· != delim) else []

/-- What is written of a line. -/
def cutField (field : Int) (delim : UInt8) (line : List UInt8) : List UInt8 :=
  cutPrint field delim (cutSeek field delim 1 (CStr.ofBytes line).chars)

/-- The loop body, with the characters in `line` and the output. -/
def cutPut (field : Int) (delim : UInt8) (st : List UInt8 × List UInt8) (c : UInt8) :
    List UInt8 × List UInt8 :=
  if c = newline ∨ 511 ≤ st.1.length then ([], st.2 ++ (cutField field delim st.1 ++ [newline]))
  else (st.1 ++ [c], st.2)

def cutStart (ub : CStr → Int) (stdin : Input) (argv : List CStr) : Ran :=
  let (field, delim) := cutArgs ub 1 tab argv.tail
  ⟨(eachByte (cutPut field delim) ([], []) stdin).2, 0⟩

/-- The `n`-th field of a line. -/
def fieldOf (n : Nat) (delim : UInt8) (line : List UInt8) : List UInt8 :=
  ((line.splitOn delim)[n - 1]?).getD []

theorem splitOn_getElem?_zero (delim : UInt8) (p : List UInt8) :
    (p.splitOn delim)[0]? = some (p.takeWhile (· != delim)) := by
  induction p with
  | nil => rfl
  | cons c p ih =>
    rw [List.splitOn, splitOnP_cons_eq_if_modifyHead]
    by_cases hc : c = delim
    · simp [hc]
    · rw [List.splitOn] at ih
      simp [hc, ih]

theorem cutPrint_cutSeek {field f : Int} {n : Nat} (h : field = f + n) (delim : UInt8)
    (p : List UInt8) :
    cutPrint field delim (cutSeek field delim f p) = ((p.splitOn delim)[n]?).getD [] := by
  induction p generalizing f n with
  | nil =>
    have hnil : cutPrint field delim (cutSeek field delim f []) = [] := by
      unfold cutPrint
      split <;> rfl
    cases n <;> simp [hnil]
  | cons c p ih =>
    rw [cutSeek]
    cases n with
    | zero => rw [if_neg (by omega), cutPrint, if_pos (by simpa using h.symm),
        splitOn_getElem?_zero, Option.getD_some]
    | succ n =>
      rw [if_pos (by omega), List.splitOn, splitOnP_cons_eq_if_modifyHead]
      by_cases hc : c = delim
      · rw [if_pos hc, if_pos (by simpa using hc), List.getElem?_cons_succ]
        exact ih (by omega)
      · rw [if_neg hc, if_neg (by simpa using hc), ih h, List.splitOn]
        cases p.splitOnP (· == delim) <;> rfl

section

variable {ub : CStr → Int} {stdin : Input} {argv : List CStr} {n : Nat}
  {delim : UInt8} {field : Int}

theorem cutField_eq {line : List UInt8} (hn : 1 ≤ n) (hnul : ∀ c ∈ line, c ≠ 0) :
    cutField n delim line = fieldOf n delim line := by
  rw [cutField, CStr.chars_ofBytes hnul, fieldOf, ← @cutPrint_cutSeek n 1 (n - 1) (by omega)]

theorem foldl_cutPut (s : List UInt8) : ∃ ps p,
    (s.splitOnP (· == newline)).flatMap (fills 511) = ps ++ [p] ∧
      (s.foldl (cutPut field delim) ([], [])).2 =
        unlines newline (ps.map (cutField field delim)) := by
  have hput : ∀ w st c, cutPut field delim (w, st) c = if c == newline ∨ 511 ≤ w.length then
      ([], st ++ (cutField field delim w ++ [newline])) else (w ++ [c], st) := by
    simp [cutPut]
  obtain ⟨ps, p, hps, hfold⟩ := foldl_frame hput s
  refine ⟨ps, p, hps, ?_⟩
  rw [hfold, unlines, flatMap_map, flatMap_eq_foldl]

theorem mem_of_mem_fieldOf {l : List UInt8} {c : UInt8} (hc : c ∈ fieldOf n delim l) : c ∈ l := by
  unfold fieldOf at hc
  cases hp : (l.splitOn delim)[n - 1]? with
  | none => simp [hp] at hc
  | some p =>
    have hmem := mem_of_getElem? hp
    exact (mem_of_mem_splitOnP hmem c (by simpa [hp] using hc)).1

theorem short_of_sum_eq_zero {ls : List (List UInt8)} (h : (ls.map (·.length / 512)).sum = 0) :
    ∀ l ∈ ls, l.length ≤ 511 := by
  intro l hl
  have := List.sum_eq_zero_iff_forall_eq_nat.mp h _ (mem_map_of_mem hl)
  omega

/-- One line is too long. -/
theorem exists_long {ls : List (List UInt8)} (h : (ls.map (·.length / 512)).sum = 1) :
    ∃ ls₁ l ls₂, ls = ls₁ ++ l :: ls₂ ∧ 512 ≤ l.length ∧ l.length < 1024 ∧
      ∀ x ∈ ls₁ ++ ls₂, x.length ≤ 511 := by
  obtain ⟨l, hl, hlong⟩ : ∃ l ∈ ls, l.length / 512 ≠ 0 := by
    by_contra hnone
    push Not at hnone
    have hzero : (ls.map (·.length / 512)).sum = 0 :=
      List.sum_eq_zero_iff_forall_eq_nat.mpr (by simpa using hnone)
    omega
  obtain ⟨ls₁, ls₂, rfl⟩ := append_of_mem hl
  simp only [map_append, map_cons, sum_append, sum_cons] at h
  refine ⟨ls₁, l, ls₂, rfl, by omega, by omega, forall_mem_append.mpr ⟨?_, ?_⟩⟩
  · exact short_of_sum_eq_zero (by omega)
  · exact short_of_sum_eq_zero (by omega)

/-- A long line among short ones goes through the buffer in two pieces. -/
theorem dropLast_fills_eq_iff {ls ls' : List (List UInt8)} {l : List UInt8} (hlo : 512 ≤ l.length)
    (hhi : l.length < 1024) (hshort : ∀ x ∈ ls ++ ls', x.length ≤ 511)
    (f : List UInt8 → List UInt8) :
    ((ls ++ l :: ls').flatMap (fills 511)).dropLast.map f = (ls ++ l :: ls').map f ↔
      (l.take 511 :: l.drop 512 :: ls').dropLast.map f = (l :: ls').map f := by
  obtain ⟨hls, hls'⟩ := forall_mem_append.mp hshort
  have hl : fills 511 l = [l.take 511, l.drop 512] := by
    rw [fills, dif_neg (by omega), fills_of_le (by simp; omega)]
  rw [flatMap_append, flatMap_cons, flatMap_fills_of_le hls, flatMap_fills_of_le hls', hl,
    dropLast_append_of_ne_nil (by simp), map_append, map_append, append_cancel_left_eq]
  rfl

/-- What is printed are the fields of all pieces but the last one. -/
theorem cutStart_eq_iff (hargs : cutArgs ub 1 tab argv.tail = ((n : Int), delim)) (hn : 1 ≤ n)
    (hnul : ∀ c ∈ stdin.bytes, c ≠ 0) :
    ∃ ps p, (stdin.bytes.splitOnP (· == newline)).flatMap (fills 511) = ps ++ [p] ∧
      (cutStart ub stdin argv =
          ⟨unlines newline ((textLines stdin.bytes).map (fieldOf n delim)), 0⟩ ↔
        ps.map (fieldOf n delim) = (textLines stdin.bytes).map (fieldOf n delim)) := by
  obtain ⟨ps, p, hps, hout⟩ := @foldl_cutPut delim n stdin.bytes
  refine ⟨ps, p, hps, ?_⟩
  have hrun : cutStart ub stdin argv = ⟨unlines newline (ps.map (cutField n delim)), 0⟩ := by
    simp [cutStart, hargs, eachByte_eq, hout]
  have hpiece : ∀ q ∈ ps, ∀ c ∈ q, c ∈ stdin.bytes ∧ (c == newline) = false := fun q hq =>
    (mem_of_mem_flatMap_fills (hps ▸ mem_append_left [p] hq)).2
  have hfields : ps.map (cutField n delim) = ps.map (fieldOf n delim) :=
    map_congr_left fun q hq => cutField_eq hn fun c hc => hnul c (hpiece q hq c hc).1
  have hnl : ∀ l ∈ ps.map (fieldOf n delim), newline ∉ l := by
    intro l hl hmem
    obtain ⟨q, hq, rfl⟩ := mem_map.mp hl
    simpa using (hpiece q hq _ (mem_of_mem_fieldOf hmem)).2
  have hnl' : ∀ l ∈ (textLines stdin.bytes).map (fieldOf n delim), newline ∉ l := by
    intro q hq hmem
    obtain ⟨l, hl, rfl⟩ := mem_map.mp hq
    exact not_mem_of_mem_lines hl (mem_of_mem_fieldOf hmem)
  rw [hrun, hfields, Ran.mk.injEq, and_iff_left rfl, unlines_inj hnl hnl']

/-- **What `cut` prints** is right iff the input ends with a newline and its lines fit the
buffer, or it does not and one line is printed as two whose fields, with those of the lines
behind it, happen to be the missing ones. -/
theorem cut_iff (hargs : cutArgs ub 1 tab argv.tail = ((n : Int), delim)) (hn : 1 ≤ n)
    (hnul : ∀ c ∈ stdin.bytes, c ≠ 0) :
    cutStart ub stdin argv = ⟨unlines newline ((textLines stdin.bytes).map (fieldOf n delim)), 0⟩ ↔
      (ended (· == newline) stdin.bytes = true ∧ ∀ l ∈ textLines stdin.bytes, l.length ≤ 511) ∨
      (ended (· == newline) stdin.bytes = false ∧
        ∃ ls l ls', textLines stdin.bytes = ls ++ l :: ls' ∧
        512 ≤ l.length ∧ l.length < 1024 ∧ (∀ x ∈ ls ++ ls', x.length ≤ 511) ∧
        (l.take 511 :: l.drop 512 :: ls').dropLast.map (fieldOf n delim) =
          (l :: ls').map (fieldOf n delim)) := by
  obtain ⟨ps, p, hps, hiff⟩ := cutStart_eq_iff hargs hn hnul
  rw [hiff]
  rw [splitOnP_eq, flatMap_append] at hps
  have hlen : ((textLines stdin.bytes).flatMap (fills 511)).length =
      (textLines stdin.bytes).length + ((textLines stdin.bytes).map (·.length / 512)).sum :=
    length_flatMap_fills 511 _
  cases hend : ended (· == newline) stdin.bytes with
  | true =>
    obtain ⟨hps, -⟩ := append_inj' hps (by simp [hend, fills_of_le])
    rw [← hps]
    simp only [true_and, reduceCtorEq, false_and, or_false]
    refine ⟨fun h => short_of_sum_eq_zero ?_, fun h => by rw [flatMap_fills_of_le h]⟩
    have hmap := congrArg length h
    rw [length_map, length_map, hlen] at hmap
    omega
  | false =>
    simp only [hend, Bool.false_eq_true, if_false, flatMap_nil, append_nil] at hps
    have hdrop : ps = ((textLines stdin.bytes).flatMap (fills 511)).dropLast := by
      rw [hps, dropLast_concat]
    simp only [hdrop, reduceCtorEq, false_and, true_and, false_or]
    constructor
    · intro h
      have hne : textLines stdin.bytes ≠ [] := fun hnil => by simp [hnil] at hps
      have hmap := congrArg length h
      rw [length_map, length_map, length_dropLast, hlen] at hmap
      -- one piece more than lines
      obtain ⟨ls, l, ls', heq, hlo, hhi, hshort⟩ := @exists_long (textLines stdin.bytes) (by
        have := length_pos_iff.mpr hne
        omega)
      rw [heq] at h
      exact ⟨ls, l, ls', heq, hlo, hhi, hshort, (dropLast_fills_eq_iff hlo hhi hshort _).mp h⟩
    · rintro ⟨ls, l, ls', heq, hlo, hhi, hshort, h⟩
      rw [heq]
      exact (dropLast_fills_eq_iff hlo hhi hshort _).mpr h

end

theorem cut_second_field : cutStart (fun _ => 0) ⟨[97, 44, 98, 10], []⟩
    [.ascii "cut", .ascii "-d,", .ascii "-f2"] = ⟨[98, 10], 0⟩ :=
  (@cut_iff (fun _ => 0) ⟨[97, 44, 98, 10], []⟩ [.ascii "cut", .ascii "-d,", .ascii "-f2"] 2 44
    (by decide) (by decide) (by simp)).mpr (.inl ⟨by decide, by decide⟩)

/-- A last line without a newline is lost. -/
theorem cut_drops_last : ∃ inp : Input, (∀ c ∈ inp.bytes, c ≠ 0) ∧
    cutStart (fun _ => 0) inp [.ascii "cut"] ≠
      ⟨unlines newline ((textLines inp.bytes).map (fieldOf 1 tab)), 0⟩ := by
  refine ⟨⟨[97], []⟩, by simp, ?_⟩
  simp only [cutStart, tail_cons, cutArgs, eachByte_eq]
  decide

end AliOS
