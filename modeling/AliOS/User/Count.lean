import AliOS.User

/-!
# AliOS.User.Count

The programs that print numbers: `wc` and `seq` (`user/wc.c`, `user/seq.c`), with `putnum` of
`user/user.h`.  `wc` counts what is in its buffer, so the numbers are right for an input of at
most 4095 bytes.  `seq` ends when it has stepped past the last number; behind the greatest
`int` there is nothing to step to.
-/

namespace AliOS

open Lib List

/-! ## putnum -/

/-- `while (n) { buf[i++] = (char)('0' + n % 10); n /= 10; }`: the last digit first. -/
def putDigits (n : Int) : List UInt8 :=
  if _h : n = 0 then [] else UInt8.ofNat (48 + n.tmod 10).toNat :: putDigits (n.tdiv 10)
termination_by n.natAbs
decreasing_by exact (Int.natAbs_tdiv n 10).trans_lt (Nat.div_lt_self (by omega) (by decide))

/-- `putnum(fd, n)`: what is written. -/
def putnum (n : Int) : List UInt8 :=
  if n = 0 then [48]
  else if n < 0 then 45 :: (putDigits ((-n).bmod (2 ^ 32))).reverse
  else (putDigits n).reverse

/-- A number as text. -/
def numText (n : Nat) : List UInt8 := (Nat.toDigits 10 n).map Char.toUInt8

theorem numText_of_lt : ∀ n < 10, numText n = [UInt8.ofNat (48 + n)] := by
  decide +kernel

theorem numText_of_le {n : Nat} (h : 10 ≤ n) :
    numText n = numText (n / 10) ++ numText (n % 10) := by
  have hdigit : n % 10 < 10 := by omega
  rw [numText, Nat.toDigits_of_base_le (by decide) h, ← Nat.toDigits_of_lt_base hdigit, map_append]
  rfl

theorem putnum_eq (n : Nat) : putnum n = numText n := by
  have hdigits : n ≠ 0 → (putDigits n).reverse = numText n := by
    induction n using Nat.strong_induction_on with
    | h n ih =>
      intro hn
      have hlast : [UInt8.ofNat (48 + (n : Int).tmod 10).toNat] = numText (n % 10) :=
        (numText_of_lt (n % 10) (by omega)).symm
      rw [putDigits.eq_def, dif_neg (by omega), reverse_cons, hlast,
        show (n : Int).tdiv 10 = (n / 10 : Nat) from rfl]
      by_cases h : n < 10
      · rw [Nat.div_eq_of_lt h, Nat.mod_eq_of_lt h, putDigits.eq_def]
        rfl
      · rw [ih (n / 10) (by omega) (by omega), ← numText_of_le (by omega)]
  unfold putnum
  split
  · rw [show n = 0 by omega]
    rfl
  · rw [if_neg (by omega), hdigits (by omega)]

/-- The value of a text of digits. -/
def textNum (s : List UInt8) : Nat := s.foldl (fun n c => n * 10 + (c.toNat - 48)) 0

theorem numText_digits (n : Nat) : (∀ c ∈ numText n, isDigit c) ∧ textNum (numText n) = n := by
  have hdigit : ∀ d < 10, isDigit (UInt8.ofNat (48 + d)) ∧
      (UInt8.ofNat (48 + d)).toNat - 48 = d := by decide
  induction n using Nat.strong_induction_on with
  | h n ih =>
    by_cases h : n < 10
    · rw [numText_of_lt n h]
      simpa [textNum] using hdigit n h
    · obtain ⟨hlast, hval⟩ := hdigit (n % 10) (by omega)
      obtain ⟨hfront, hnum⟩ := ih (n / 10) (by omega)
      rw [numText_of_le (by omega), numText_of_lt (n % 10) (by omega), forall_mem_append,
        textNum, foldl_append, ← textNum, hnum, foldl_cons, hval]
      exact ⟨⟨hfront, by simpa using hlast⟩, Nat.div_add_mod' n 10⟩

/-- A space ends the number. -/
theorem numText_append_inj {m n : Nat} {s t : List UInt8}
    (h : numText m ++ space :: s = numText n ++ space :: t) :
    s = t := by
  have htake := congrArg (List.takeWhile isDigit) h
  rw [takeWhile_append_of_pos (numText_digits _).1,
    takeWhile_append_of_pos (numText_digits _).1] at htake
  have heq : numText m = numText n := by simpa [space, isDigit] using htake
  simpa [heq] using h

/-! ## wc -/

def wcBlank (c : UInt8) : Bool := c == space || c == tab || c == newline || c == 13

/-- The loop body, with `lines`, `words` and `in_word`. -/
def wcByte (st : Nat × Nat × Bool) (c : UInt8) : Nat × Nat × Bool :=
  let lines := if c = newline then st.1 + 1 else st.1
  if wcBlank c then (lines, st.2.1, false)
  else if !st.2.2 then (lines, st.2.1 + 1, true)
  else (lines, st.2)

/-- The numbers and the name of the file. -/
def wcPrint (lines words chars : List UInt8) (fname : Option CStr) : List UInt8 :=
  lines ++ space :: (words ++ space :: (chars ++ (fname.elim [] (space :: ·.chars) ++ [newline])))

def wcStart (files : CStr → Option Input) (stdin : Input) (argv : List CStr) : Ran :=
  let fname := argv.tail.head?
  match inputOf files stdin fname with
  | none => ⟨cannotOpen "wc" fname, 1⟩
  | some inp =>
    let ibuf := readAll 4095 [] inp
    let (lines, words, _) := ibuf.foldl wcByte (0, 0, false)
    ⟨wcPrint (putnum lines) (putnum words) (putnum ibuf.length) fname, 0⟩

theorem foldl_wcByte (s : List UInt8) : ∃ b, s.foldl wcByte (0, 0, false) =
    (s.count newline, (words wcBlank s).length, b) := by
  -- `w` is the part of a word before `s`, which has been counted
  have hfold : ∀ (s w : List UInt8) (l n : Nat), ∃ b m, s.foldl wcByte (l, n, !w.isEmpty) =
      (l + s.count newline, m, b) ∧ m + (flush w).length = n + (wordsFrom wcBlank w s).length := by
    intro s
    induction s with
    | nil => exact fun w l n => ⟨_, n, rfl, by simp⟩
    | cons c s ih =>
      intro w l n
      have hlines : l + (c :: s).count newline =
          (if c = newline then l + 1 else l) + s.count newline := by
        rw [List.count_cons]
        split <;> simp_all
        omega
      rw [List.foldl_cons, wcByte, hlines, wordsFrom_cons]
      split
      · obtain ⟨b, m, hm, hlen⟩ := ih [] (if c = newline then l + 1 else l) n
        exact ⟨b, m, hm, by simp at hlen ⊢; omega⟩
      · cases hw : w with
        | nil =>
          obtain ⟨b, m, hm, hlen⟩ := ih [c] (if c = newline then l + 1 else l) (n + 1)
          exact ⟨b, m, hm, by simp [flush] at hlen ⊢; omega⟩
        | cons d w =>
          obtain ⟨b, m, hm, hlen⟩ := ih (d :: w ++ [c]) (if c = newline then l + 1 else l) n
          exact ⟨b, m, hm, by simpa [flush] using hlen⟩
  obtain ⟨b, m, hm, hlen⟩ := hfold s [] 0 0
  rw [wordsFrom_empty, flush_nil, List.length_nil, Nat.zero_add] at hlen
  exact ⟨b, by simpa [← hlen] using hm⟩

/-- The report about a text. -/
def wcReport (fname : Option CStr) (s : List UInt8) : List UInt8 :=
  wcPrint (numText (s.count newline)) (numText (words wcBlank s).length) (numText s.length) fname

theorem length_eq_of_wcReport {fname : Option CStr} {s t : List UInt8}
    (h : wcReport fname s = wcReport fname t) :
    s.length = t.length := by
  have hchars := List.append_cancel_right (numText_append_inj (numText_append_inj h))
  rw [← (numText_digits s.length).2, hchars, (numText_digits t.length).2]

section

variable {files : CStr → Option Input} {stdin inp : Input} {argv : List CStr}

/-- What `wc` counts is in the buffer. -/
theorem wcStart_eq (hin : inputOf files stdin argv.tail.head? = some inp) :
    wcStart files stdin argv = ⟨wcReport argv.tail.head? (inp.bytes.take 4095), 0⟩ := by
  obtain ⟨b, hb⟩ := foldl_wcByte (inp.bytes.take 4095)
  have hbuf : readAll 4095 [] inp = inp.bytes.take 4095 := readAll_eq inp (Nat.zero_le _)
  simp only [wcStart, hin, hbuf, hb, putnum_eq, wcReport]

/-- **`wc` counts lines, words and bytes** of an input that fits its buffer, and of no other. -/
theorem wc_iff (hin : inputOf files stdin argv.tail.head? = some inp) :
    wcStart files stdin argv = ⟨wcReport argv.tail.head? inp.bytes, 0⟩ ↔
      inp.bytes.length ≤ 4095 := by
  rw [wcStart_eq hin]
  refine ⟨fun h => ?_, fun h => by rw [List.take_of_length_le h]⟩
  have hlen := length_eq_of_wcReport (congrArg Ran.out h)
  rw [List.length_take] at hlen
  omega

end

theorem wc_two_words : wcStart (fun _ => none) ⟨[97, 32, 98, 10], [1, 2]⟩ [.ascii "wc"] =
    ⟨wcReport none [97, 32, 98, 10], 0⟩ :=
  (@wc_iff _ ⟨[97, 32, 98, 10], [1, 2]⟩ _ [.ascii "wc"] rfl).mpr (by decide)

/-- The byte behind the first 4095 is not counted. -/
theorem wc_stops : ∃ inp :
    Input, wcStart (fun _ => none) inp [.ascii "wc"] ≠ ⟨wcReport none inp.bytes, 0⟩ := by
  refine ⟨⟨List.replicate 4096 97, []⟩, fun h => ?_⟩
  rw [wcStart_eq rfl] at h
  have hlen := length_eq_of_wcReport (congrArg Ran.out h)
  rw [List.length_take, List.length_replicate] at hlen
  omega

/-! ## seq -/

/-- The `for` loop for at most so many turns, and what has been written when it ends. -/
def seqLoop (last step : Int) : Nat → Int → List UInt8 → Option (List UInt8)
  | 0, _, _ => none
  | turns + 1, i, out =>
    if if step > 0 then i ≤ last else i ≥ last then
      seqLoop last step turns ((i + step).bmod (2 ^ 32)) (out ++ putnum i ++ [newline])
    else some out

/-- The main loop. -/
def seqMain (start last : Int) (turns : Nat) : Option (List UInt8) :=
  seqLoop last (if last ≥ start then 1 else -1) turns start []

def seqStart (ub : CStr → Int) (argv : List CStr) (turns : Nat) : Option Ran :=
  match argv with
  | [_, n] => (seqMain 1 (parseInt ub n) turns).map (⟨·, 0⟩)
  | _ :: a :: b :: _ => (seqMain (parseInt ub a) (parseInt ub b) turns).map (⟨·, 0⟩)
  | _ => some ⟨text "usage: seq <n>  or  seq <start> <end>\n", 1⟩

/-- The numbers from `start` to `last`. -/
def fromTo (start last : Nat) : List Nat :=
  if start ≤ last then List.range' start (last + 1 - start)
  else (List.range' last (start + 1 - last)).reverse

theorem seqLoop_up {last : Nat} (hlast : last < 2 ^ 31 - 1) (n i : Nat) (hi : i + n = last + 1)
    (out : List UInt8) :
    seqLoop last 1 (n + 1) i out =
      some (out ++ unlines newline ((List.range' i n).map numText)) := by
  induction n generalizing i out with
  | zero => simp [seqLoop, unlines, show ¬(i : Int) ≤ last by omega]
  | succ n ih =>
    have hnext : ((i : Int) + 1).bmod (2 ^ 32) = (i + 1 : Nat) := by
      rw [Int.bmod_eq_of_le (by omega) (by omega)]
      rfl
    rw [seqLoop, if_pos (by simp; omega), hnext, ih (i + 1) (by omega), putnum_eq]
    simp [List.range'_succ, unlines]

theorem seqLoop_down {last : Nat} (n i : Nat) (hi : last + n = i) (hmax : i < 2 ^ 31)
    (out : List UInt8) :
    seqLoop last (-1) (n + 2) i out =
      some (out ++ unlines newline ((List.range' last (n + 1)).reverse.map numText)) := by
  have hgo : ∀ i : Int, (if (-1 : Int) > 0 then i ≤ last else i ≥ last) ↔ last ≤ i := by simp
  induction n generalizing i out with
  | zero =>
    have hnext : ((i : Int) + -1).bmod (2 ^ 32) = i - 1 := by
      rw [Int.bmod_eq_of_le (by omega) (by omega)]
      rfl
    rw [seqLoop, if_pos ((hgo _).mpr (by omega)), hnext, seqLoop, if_neg (by rw [hgo]; omega),
      putnum_eq]
    simp [unlines, ← hi]
  | succ n ih =>
    have hnext : ((i : Int) + -1).bmod (2 ^ 32) = (i - 1 : Nat) := by
      rw [Int.bmod_eq_of_le (by omega) (by omega)]
      omega
    rw [seqLoop, if_pos ((hgo _).mpr (by omega)), hnext, ih (i - 1) (by omega) (by omega),
      putnum_eq]
    simp [List.range'_concat, unlines, ← hi]

/-- With the greatest `int` at the end no number is past it. -/
theorem seqLoop_max (turns : Nat) (i : Int) (hi : i < 2 ^ 31) (out : List UInt8) :
    seqLoop (2 ^ 31 - 1 : Nat) 1 turns i out = none := by
  induction turns generalizing i out with
  | zero => rfl
  | succ turns ih =>
    rw [seqLoop, if_pos (by simp; omega)]
    exact ih _ (Int.bmod_lt (by decide)) _

/-- **`seq` ends and prints the numbers** unless it counts up to the greatest `int`. -/
theorem seq_iff {start last : Nat} (hstart : start < 2 ^ 31) (hlast : last < 2 ^ 31) :
    (∃ turns, seqMain start last turns = some (unlines newline ((fromTo start last).map numText))) ↔
      (start ≤ last → last ≠ 2 ^ 31 - 1) := by
  unfold seqMain fromTo
  by_cases hup : start ≤ last
  · simp only [ge_iff_le, Nat.cast_le, hup, if_true, true_imp_iff]
    refine ⟨fun ⟨turns, h⟩ hmax => ?_,
      fun hmax => ⟨_, seqLoop_up (by omega) (last + 1 - start) start (by omega) []⟩⟩
    rw [hmax, seqLoop_max turns start (by omega)] at h
    cases h
  · simp only [ge_iff_le, Nat.cast_le, hup, if_false, false_imp_iff, iff_true]
    refine ⟨start - last + 2, ?_⟩
    rw [seqLoop_down (start - last) start (by omega) hstart,
      show start - last + 1 = start + 1 - last by omega]
    rfl

theorem seq_three : ∃ turns, seqMain 3 1 turns = some (unlines newline ([3, 2, 1].map numText)) :=
  (@seq_iff 3 1 (by decide) (by decide)).mpr (by decide)

theorem seq_never_ends :
    ∃ start last : Nat, start < 2 ^ 31 ∧ last < 2 ^ 31 ∧
      ∀ turns, seqMain start last turns = none := by
  refine ⟨2 ^ 31 - 1, 2 ^ 31 - 1, by decide, by decide, fun turns => ?_⟩
  rw [seqMain, if_pos le_rfl]
  exact seqLoop_max turns _ (by decide) []

end AliOS
