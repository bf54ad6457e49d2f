import Mathlib.Data.List.TakeWhile
import AliOS.Lib.Split
import AliOS.Shell.Redirect

/-!
# AliOS.Shell.Words

What a command with redirections says, and what `strip_redirects` and `tokenise` make of it
(`kernel/shell.c`).  On the one side the command is read word by word: `lex` gives its words
and operators, an operator takes the word behind it as its file, and the other words are the
arguments.  On the other side is the scanner, which overwrites operators and names with
spaces in place and copies the names to buffers.

The two agree, except that of a name only 63 characters are copied and overwritten, so the
rest of it stays in the command as a word, and that `cmd_run` takes 16 words.
-/

namespace AliOS

open Lib List

variable {f : RedirOp × List UInt8}

/-! ## operators with their files -/

section

variable (op : RedirOp) (s : List UInt8)

/-- The spaces behind the operator at the start of `s`. -/
def RedirOp.blanks : List UInt8 := (s.drop op.width).takeWhile (· == space)

/-- The file name of the operator at the start of `s`: it ends at a space. -/
def RedirOp.name : List UInt8 := ((s.drop op.width).dropWhile (· == space)).takeWhile (· != space)

def RedirOp.rest : List UInt8 := ((s.drop op.width).dropWhile (· == space)).dropWhile (· != space)

theorem RedirOp.drop_width : s.drop op.width = op.blanks s ++ (op.name s ++ op.rest s) := by
  rw [RedirOp.blanks, RedirOp.name, RedirOp.rest, takeWhile_append_dropWhile,
    takeWhile_append_dropWhile]

theorem RedirOp.length_rest_lt (hs : s ≠ []) : (op.rest s).length < s.length := by
  have hdrop := congrArg List.length (op.drop_width s)
  have hpos := length_pos_of_ne_nil hs
  have hwidth : 0 < op.width := by cases op <;> decide
  simp only [length_drop, length_append] at hdrop
  omega

theorem RedirOp.mem_blanks : ∀ c ∈ op.blanks s, c = space := by
  intro c hc
  simpa using mem_takeWhile_imp hc

theorem RedirOp.mem_name : ∀ c ∈ op.name s, c ≠ space := by
  intro c hc
  simpa using mem_takeWhile_imp hc

theorem RedirOp.head_rest : ∀ c, (op.rest s).head? = some c → c = space := by
  intro c hc
  have h := List.head?_dropWhile_not (· != space) ((s.drop op.width).dropWhile (· == space))
  rw [← RedirOp.rest, hc] at h
  simpa using h

/-- Without a name there is nothing left. -/
theorem RedirOp.rest_of_name (h : op.name s = []) : op.rest s = [] := by
  have hfile := List.head?_dropWhile_not (· == space) (s.drop op.width)
  unfold RedirOp.name at h
  unfold RedirOp.rest
  cases hs : (s.drop op.width).dropWhile (· == space) with
  | nil => rfl
  | cons c t => simp_all

end

/-- The redirections of a command: the operators that have a file name, with the names. -/
def redirs (s : List UInt8) : List (RedirOp × List UInt8) :=
  match s with
  | [] => []
  | c :: s =>
    match redirOp (c :: s) with
    | none => redirs s
    | some op =>
      if op.name (c :: s) = [] then redirs (op.rest (c :: s))
      else (op, op.name (c :: s)) :: redirs (op.rest (c :: s))
termination_by s.length
decreasing_by
  · exact Nat.lt_succ_self _
  · exact op.length_rest_lt _ (cons_ne_nil _ _)
  · exact op.length_rest_lt _ (cons_ne_nil _ _)

example : redirs (CStr.ascii "a <b >>c").chars =
    [(.input, [98]), (.append, [99])] := by decide +kernel

/-- No file name contains an operator. -/
def PlainNames (s : List UInt8) : Prop := ∀ f ∈ redirs s, ∀ c ∈ f.2, c ≠ less ∧ c ≠ greater

instance (s : List UInt8) : Decidable (PlainNames s) :=
  inferInstanceAs (Decidable (∀ f ∈ redirs s, ∀ c ∈ f.2, c ≠ less ∧ c ≠ greater))

/-- The files that a command names, one for the input and one for the output, which comes with
whether it is appended to.  The last operator counts. -/
@[ext] structure FileNames where
  input : Option (List UInt8)
  output : Option (List UInt8 × Bool)
deriving DecidableEq

def namedFiles (fs : List (RedirOp × List UInt8)) : FileNames where
  input := ((fs.filter (·.1 = .input)).getLast?).map (·.2)
  output := ((fs.filter (·.1 ≠ .input)).getLast?).map fun f => (f.2, f.1 = .append)

/-- The names that `in_f` and `out_f` point to. -/
def Redirects.fileNames (r : Redirects) : FileNames where
  input := if r.inFile then some r.inBuf.chars else none
  output := if r.outFile then some (r.outBuf.chars, r.outAppend) else none

/-- What the buffers have room for. -/
def FileNames.cut (f : FileNames) : FileNames where
  input := f.input.map (·.take 63)
  output := f.output.map fun o => (o.1.take 63, o.2)

/-! ## words and operators -/

inductive Token where
  | word (w : List UInt8)
  | op (op : RedirOp)
deriving DecidableEq

/-- The words and operators of a string, when `w` has been read of a word. -/
def lexFrom (w s : List UInt8) : List Token :=
  match s with
  | [] => (flush w).map .word
  | c :: s =>
    match redirOp (c :: s) with
    | some op => (flush w).map .word ++ .op op :: lexFrom [] ((c :: s).drop op.width)
    | none => if c = space then (flush w).map .word ++ lexFrom [] s else lexFrom (w ++ [c]) s
termination_by s.length
decreasing_by
  · rw [length_drop, length_cons]
    cases op <;> dsimp only [RedirOp.width] <;> omega
  · exact Nat.lt_succ_self _
  · exact Nat.lt_succ_self _

def lex (s : List UInt8) : List Token := lexFrom [] s

/-- The words that no operator takes as its file, and what `k` keeps of the files. -/
def keepWords (k : List UInt8 → List (List UInt8)) : List Token → List (List UInt8)
  | [] => []
  | .word w :: ts => w :: keepWords k ts
  | .op _ :: .word f :: ts => k f ++ keepWords k ts
  | .op _ :: ts => keepWords k ts

/-- The arguments: the words of the command without its redirections. -/
def args (ts : List Token) : List (List UInt8) := keepWords (fun _ => []) ts

/-- The operators that have a file name, with the names. -/
def files : List Token → List (RedirOp × List UInt8)
  | [] => []
  | .word _ :: ts => files ts
  | .op o :: .word f :: ts => (o, f) :: files ts
  | .op _ :: ts => files ts

/-- What `strip_redirects` leaves of a file name in the command. -/
def leftover (f : List UInt8) : List (List UInt8) := flush (f.drop 63)

section

variable {c : UInt8} {s t w : List UInt8} {op : RedirOp} {r : Redirects} {ts : List Token}
  {k : List UInt8 → List (List UInt8)}

/-! ## the scanner, step by step -/

theorem redirOp_of_ne (hl : c ≠ less) (hg : c ≠ greater) (s : List UInt8) :
    redirOp (c :: s) = none := by
  simp [redirOp, hl, hg]

theorem redirOp_width_le (h : redirOp s = some op) : op.width ≤ s.length := by
  cases s with
  | nil => cases h
  | cons c s =>
    cases op with
    | input | output => simp [RedirOp.width]
    | append =>
      cases s with
      | nil => grind [redirOp]
      | cons d s => simp [RedirOp.width]

theorem redirs_char (h : redirOp (c :: s) = none) : redirs (c :: s) = redirs s := by
  rw [redirs, h]

theorem redirs_op (h : redirOp s = some op) :
    redirs s = (if op.name s = [] then [] else [(op, op.name s)]) ++ redirs (op.rest s) := by
  cases s with
  | nil => cases h
  | cons c s =>
    rw [redirs, h]
    by_cases hname : op.name (c :: s) = [] <;> simp [hname]

theorem stripLoop_char (h : redirOp (c :: s) = none) :
    stripLoop r (c :: s) = (c :: (stripLoop r s).1, (stripLoop r s).2) := by
  rw [stripLoop, h]

theorem stripLoop_op (h : redirOp s = some op) : stripLoop r s =
    let res := stripLoop (if op.name s = [] then r else op.note (op.name s) r) (op.rest s)
    (List.replicate op.width space ++ op.blanks s ++ List.replicate (min (op.name s).length 63)
      space ++
      (op.name s).drop 63 ++ res.1, res.2) := by
  cases s with
  | nil => cases h
  | cons c s =>
    rw [stripLoop, h]
    rfl

theorem stripLoop_nil : stripLoop r [] = ([], r) := by
  rw [stripLoop]

/-- The string keeps its length. -/
theorem length_stripLoop (r : Redirects) (s : List UInt8) :
    (stripLoop r s).1.length = s.length := by
  induction s using redirs.induct generalizing r with
  | case1 => rw [stripLoop_nil]
  | case2 c s h ih => simp [stripLoop_char h, ih]
  | case3 c s op h _ ih | case4 c s op h _ ih =>
    have hdrop := congrArg List.length (op.drop_width (c :: s))
    have hwidth := redirOp_width_le h
    simp only [length_drop, length_append] at hdrop
    simp only [stripLoop_op h, length_append, length_replicate, length_drop, ih]
    omega

/-- The names go to the buffers one after the other. -/
theorem stripLoop_snd (r : Redirects) (s : List UInt8) :
    (stripLoop r s).2 = (redirs s).foldl (fun r f => f.1.note f.2 r) r := by
  induction s using redirs.induct generalizing r with
  | case1 => rw [stripLoop_nil, redirs]; rfl
  | case2 c s h ih => simp [stripLoop_char h, redirs_char h, ih]
  | case3 c s op h hname ih => simp [stripLoop_op h, redirs_op h, hname, ih]
  | case4 c s op h hname ih => simp [stripLoop_op h, redirs_op h, hname, ih]

/-! ## the words, step by step -/

theorem lexFrom_nil : lexFrom w [] = (flush w).map .word := by
  rw [lexFrom]

theorem lexFrom_op (h : redirOp s = some op) :
    lexFrom w s = (flush w).map .word ++ .op op :: lexFrom [] (s.drop op.width) := by
  cases s with
  | nil => cases h
  | cons c s => rw [lexFrom, h]

theorem lexFrom_space : lexFrom w (space :: s) = (flush w).map .word ++ lexFrom [] s := by
  rw [lexFrom, redirOp_of_ne (by decide) (by decide)]
  simp

theorem lexFrom_char (h : redirOp (c :: s) = none) (hc : c ≠ space) :
    lexFrom w (c :: s) = lexFrom (w ++ [c]) s := by
  rw [lexFrom, h]
  simp [hc]

theorem lexFrom_spaces (h : ∀ c ∈ t, c = space) : lexFrom [] (t ++ s) = lexFrom [] s := by
  induction t with
  | nil => rfl
  | cons c t ih =>
    obtain ⟨rfl, ht⟩ := forall_mem_cons.mp h
    simp [lexFrom_space, ih ht]

theorem lexFrom_append (h : ∀ c ∈ t, c ≠ space) (hplain : ∀ c ∈ t, c ≠ less ∧ c ≠ greater) :
    lexFrom w (t ++ s) = lexFrom (w ++ t) s := by
  induction t generalizing w with
  | nil => simp
  | cons c t ih =>
    obtain ⟨hc, ht⟩ := forall_mem_cons.mp h
    obtain ⟨hop, hplain⟩ := forall_mem_cons.mp hplain
    simp [lexFrom_char (redirOp_of_ne hop.1 hop.2 _) hc, ih ht hplain]

theorem lexFrom_ended (h : ∀ c, s.head? = some c → c = space) :
    lexFrom w s = (flush w).map .word ++ lexFrom [] s := by
  cases s with
  | nil => simp [lexFrom_nil]
  | cons c s =>
    obtain rfl := h c rfl
    simp [lexFrom_space]

/-- An operator and its file. -/
theorem lexFrom_redirection (h : redirOp s = some op)
    (hplain : ∀ c ∈ op.name s, c ≠ less ∧ c ≠ greater) :
    lexFrom w s =
      (flush w).map .word ++ .op op ::
        ((flush (op.name s)).map .word ++ lexFrom [] (op.rest s)) := by
  rw [lexFrom_op h, op.drop_width, lexFrom_spaces (op.mem_blanks s),
    lexFrom_append (op.mem_name s) hplain, nil_append, lexFrom_ended (op.head_rest s)]

theorem keepWords_words (w : List UInt8) (ts : List Token) :
    keepWords k ((flush w).map .word ++ ts) = flush w ++ keepWords k ts := by
  cases w <;> simp [flush, keepWords]

theorem files_words (w : List UInt8) (ts : List Token) :
    files ((flush w).map .word ++ ts) = files ts := by
  cases w <;> simp [flush, files]

theorem PlainNames.char (h : redirOp (c :: s) = none) (hplain : PlainNames (c :: s)) :
    PlainNames s := by
  rwa [PlainNames, redirs_char h] at hplain

theorem PlainNames.rest (h : redirOp s = some op) (hplain : PlainNames s) :
    PlainNames (op.rest s) := by
  intro f hf
  exact hplain f (by rw [redirs_op h]; exact mem_append_right _ hf)

theorem PlainNames.name (h : redirOp s = some op) (hplain : PlainNames s) :
    ∀ c ∈ op.name s, c ≠ less ∧ c ≠ greater := by
  by_cases hname : op.name s = []
  · simp [hname]
  · exact hplain (op, op.name s) (by simp [redirs_op h, hname])

/-- What an operator takes with it. -/
theorem keepWords_redirection (h : redirOp s = some op) (hplain : PlainNames s) (hk : k [] = []) :
    keepWords k (lexFrom w s) = flush w ++
      (k (op.name s) ++ keepWords k (lexFrom [] (op.rest s))) := by
  rw [lexFrom_redirection h (hplain.name h), keepWords_words]
  by_cases hname : op.name s = []
  · rw [op.rest_of_name s hname, hname, hk]
    simp [lexFrom_nil, keepWords]
  · rw [flush_of_ne hname]
    simp [keepWords]

theorem files_redirection (h : redirOp s = some op) (hplain : PlainNames s) :
    files (lexFrom w s) =
      (if op.name s = [] then [] else [(op, op.name s)]) ++ files (lexFrom [] (op.rest s)) := by
  rw [lexFrom_redirection h (hplain.name h), files_words]
  by_cases hname : op.name s = []
  · rw [op.rest_of_name s hname]
    simp [hname, lexFrom_nil, files]
  · rw [flush_of_ne hname]
    simp [hname, files]

/-! ## the scanner against the words -/

/-- The words that `strip_redirects` leaves. -/
theorem wordsFrom_stripLoop (r : Redirects) (w : List UInt8) (hplain : PlainNames s) :
    wordsFrom (· == space) w (stripLoop r s).1 = keepWords leftover (lexFrom w s) := by
  induction s using redirs.induct generalizing r w with
  | case1 => simpa [stripLoop_nil, lexFrom_nil, keepWords] using (keepWords_words w []).symm
  | case2 c s h ih =>
    have hs := hplain.char h
    rw [stripLoop_char h, wordsFrom_cons]
    by_cases hc : c = space
    · simp [hc, lexFrom_space, keepWords_words, ih _ _ hs]
    · simp [hc, lexFrom_char h hc, ih _ _ hs]
  | case3 c s op h _ ih | case4 c s op h _ ih =>
    -- behind the word in hand there are only spaces up to what is left of the name
    have hspaces : ∀ d ∈ List.replicate op.width space ++ op.blanks (c :: s) ++
        List.replicate (min (op.name (c :: s)).length 63) space, (d == space) = true := by
      simp only [mem_append, mem_replicate]
      rintro d ((⟨-, rfl⟩ | hd) | ⟨-, rfl⟩)
      · rfl
      · simpa using op.mem_blanks _ d hd
      · rfl
    have hleft : ∀ d ∈ (op.name (c :: s)).drop 63, (d == space) = false := fun d hd => by
      simpa using op.mem_name _ d (mem_of_mem_drop hd)
    have hrest := lexFrom_ended (w := (op.name (c :: s)).drop 63) (op.head_rest (c :: s))
    rw [stripLoop_op h]
    dsimp only
    rw [append_assoc, wordsFrom_ended, wordsFrom_seps hspaces, wordsFrom_append hleft, nil_append,
      ih _ _ (hplain.rest h), hrest, keepWords_words, keepWords_redirection h hplain rfl, leftover]
    · intro d hd
      cases op <;> simp [RedirOp.width, replicate_succ] at hd <;> simp [← hd]

/-- The operators and names that are found. -/
theorem files_lexFrom (w : List UInt8) (hplain : PlainNames s) :
    files (lexFrom w s) = redirs s := by
  induction s using redirs.induct generalizing w with
  | case1 => simpa [lexFrom_nil, redirs, files] using files_words w []
  | case2 c s h ih =>
    rw [redirs_char h]
    by_cases hc : c = space
    · simp [hc, lexFrom_space, files_words, ih _ (hplain.char h)]
    · simp [lexFrom_char h hc, ih _ (hplain.char h)]
  | case3 c s op h _ ih | case4 c s op h _ ih =>
    rw [files_redirection h hplain, redirs_op h, ih _ (hplain.rest h)]

/-- `tokenise` gives the words, up to the number there is room for. -/
theorem tokenise_eq (n : Nat) (s : List UInt8) : tokenise n s = (words (· == space) s).take n := by
  induction n generalizing s with
  | zero => simp [tokenise]
  | succ n ih =>
    have hblanks : ∀ c ∈ s.takeWhile (· == space), (c == space) := fun c => mem_takeWhile_imp
    have hs : words (· == space) s = wordsFrom (· == space) [] (s.dropWhile (· == space)) := by
      rw [← wordsFrom_seps hblanks, takeWhile_append_dropWhile, wordsFrom_empty]
    have hhead := List.head?_dropWhile_not (· == space) s
    rw [tokenise, hs]
    cases hfile : s.dropWhile (· == space) with
    | nil => simp
    | cons c t =>
      have hc : c ≠ space := by simpa [hfile] using hhead
      have hword : (c :: t).takeWhile (· != space) ≠ [] := by simp [hc]
      have hchars : ∀ d ∈ (c :: t).takeWhile (· != space), (d == space) = false := fun d hd => by
        simpa using mem_takeWhile_imp hd
      have hend := List.head?_dropWhile_not (· != space) (c :: t)
      have hsplit : wordsFrom (· == space) [] (c :: t) = (c :: t).takeWhile (· != space) ::
          words (· == space) (((c :: t).dropWhile (· != space)).drop 1) := by
        conv_lhs => rw [← takeWhile_append_dropWhile (p := (· != space)) (l := c :: t)]
        rw [wordsFrom_append hchars, nil_append]
        cases hrest : (c :: t).dropWhile (· != space) with
        | nil => simp [flush_of_ne hword, words]
        | cons d u =>
          have hd : d = space := by simpa [hrest] using hend
          simp [wordsFrom_cons, hd, flush_of_ne hword, wordsFrom_empty]
      rw [hsplit, take_succ_cons, ← ih]

/-! ## what fits into a line -/

/-- The characters in the words. -/
def letters (ts : List Token) : Nat := (ts.map fun | .word w => w.length | .op _ => 0).sum

theorem letters_words (w : List UInt8) (ts : List Token) :
    letters ((flush w).map .word ++ ts) = w.length + letters ts := by
  cases w <;> simp [flush, letters]

theorem letters_lexFrom_le (w s : List UInt8) : letters (lexFrom w s) ≤ w.length + s.length := by
  induction w, s using lexFrom.induct with
  | case1 w => simpa [lexFrom_nil, letters] using (letters_words w []).le
  | case2 w c s op h ih =>
    rw [lexFrom_op h, letters_words]
    simp only [letters, map_cons, sum_cons, length_drop, length_nil] at ih ⊢
    omega
  | case3 w s _ ih =>
    rw [lexFrom_space, letters_words]
    simp only [length_cons, length_nil] at ih ⊢
    omega
  | case4 w c s h hc ih =>
    rw [lexFrom_char h hc]
    simp only [length_append, length_cons, length_nil] at ih ⊢
    omega

/-- Words are not empty. -/
theorem ne_nil_of_mem_lexFrom (w s : List UInt8) : ∀ v, .word v ∈ lexFrom w s → v ≠ [] := by
  have hflush : ∀ v w : List UInt8, v ∈ flush w → v ≠ [] := fun v w hv => by
    cases w <;> simp_all [flush]
  induction w, s using lexFrom.induct with
  | case1 w => simpa [lexFrom_nil] using fun v => hflush v w
  | case2 w c s op h ih => simpa [lexFrom_op h, or_imp, forall_and] using ⟨fun v => hflush v w, ih⟩
  | case3 w s _ ih => simpa [lexFrom_space, or_imp, forall_and] using ⟨fun v => hflush v w, ih⟩
  | case4 w c s h hc ih => rwa [lexFrom_char h hc]

/-- The arguments and, beside them, a file name. -/
theorem length_args_le (hne : ∀ v, .word v ∈ ts → v ≠ []) : (args ts).length ≤ letters ts ∧
    ∀ f ∈ files ts, (args ts).length + f.2.length ≤ letters ts := by
  induction ts using keepWords.induct with
  | case1 => simp [args, keepWords, files]
  | case2 w ts ih =>
    have hw := length_pos_of_ne_nil (hne w (by simp))
    obtain ⟨hts, hfiles⟩ := ih fun v hv => hne v (mem_cons_of_mem _ hv)
    simp only [args, keepWords, letters, files, map_cons, sum_cons, length_cons] at hts hfiles ⊢
    refine ⟨by omega, fun f hf => ?_⟩
    have := hfiles f hf
    omega
  | case3 o g ts ih =>
    obtain ⟨hts, hfiles⟩ := ih fun v hv => hne v (mem_cons_of_mem _ (mem_cons_of_mem _ hv))
    simp only [args, keepWords, letters, files, map_cons, sum_cons, nil_append] at hts hfiles ⊢
    refine ⟨by omega, forall_mem_cons.mpr ⟨by dsimp only; omega, fun f hf => ?_⟩⟩
    have := hfiles f hf
    omega
  | case4 o ts h ih =>
    have hts := ih fun v hv => hne v (mem_cons_of_mem _ hv)
    simpa [args, keepWords, letters, files] using hts

/-- Names that fit leave nothing behind. -/
theorem keepWords_leftover (h : ∀ f ∈ files ts, f.2.length ≤ 63) :
    keepWords leftover ts = args ts := by
  unfold args
  induction ts using keepWords.induct with
  | case1 => rfl
  | case2 w ts ih => simp [keepWords, ih (by simpa [files] using h)]
  | case3 o f ts ih =>
    obtain ⟨hf, hts⟩ := forall_mem_cons.mp (by simpa only [files] using h)
    have hdrop : f.drop 63 = [] := drop_eq_nil_of_le hf
    simp [keepWords, leftover, hdrop, ih hts]
  | case4 o ts _ ih => simp [keepWords, ih (by simpa [files] using h)]

theorem args_sublist (k : List UInt8 → List (List UInt8)) (ts : List Token) :
    (args ts).Sublist (keepWords k ts) := by
  unfold args
  induction ts using keepWords.induct with
  | case1 => exact .slnil
  | case2 w ts ih => exact ih.cons_cons w
  | case3 o f ts ih => exact ih.trans (sublist_append_right _ _)
  | case4 o ts _ ih => simpa [keepWords] using ih

/-- A name that does not fit is one more word. -/
theorem length_args_lt (hf : f ∈ files ts) (hlong : 63 < f.2.length) :
    (args ts).length < (keepWords leftover ts).length := by
  induction ts using keepWords.induct with
  | case1 => simp [files] at hf
  | case2 w ts ih => simpa [args, keepWords] using ih (by simpa [files] using hf)
  | case3 o g ts ih =>
    have hts := (args_sublist leftover ts).length_le
    simp only [args, keepWords, nil_append, length_append] at hts ih ⊢
    rw [files, mem_cons] at hf
    rcases hf with rfl | hf
    · have hrest : (leftover g).length = 1 := by
        rw [leftover, flush_of_ne (by simpa using hlong), length_singleton]
      omega
    · have hlt := ih hf
      omega
  | case4 o ts h ih => simpa [args, keepWords] using ih (by simpa [files] using hf)

/-! ## the buffers -/

theorem mem_of_mem_redirs (hf : f ∈ redirs s) : ∀ c ∈ f.2, c ∈ s := by
  induction s using redirs.induct with
  | case1 => simp [redirs] at hf
  | case2 c s h ih =>
    rw [redirs_char h] at hf
    exact fun d hd => mem_cons_of_mem _ (ih hf d hd)
  | case3 c s op h hname ih | case4 c s op h hname ih =>
    have hsub : ∀ d, d ∈ op.name (c :: s) ∨ d ∈ op.rest (c :: s) → d ∈ c :: s := fun d hd => by
      refine mem_of_mem_drop (i := op.width) ?_
      rw [op.drop_width, mem_append, mem_append]
      exact .inr hd
    simp only [redirs_op h, hname, if_true, if_false, mem_append, mem_singleton, not_mem_nil,
      false_or] at hf
    first
    | exact fun d hd => hsub d (.inr (ih hf d hd))
    | rcases hf with rfl | hf
      · exact fun d hd => hsub d (.inl hd)
      · exact fun d hd => hsub d (.inr (ih hf d hd))

theorem name_ne_nil_of_mem_redirs (hf : f ∈ redirs s) : f.2 ≠ [] := by
  induction s using redirs.induct with
  | case1 => simp [redirs] at hf
  | case2 c s h ih => exact ih (by rwa [redirs_char h] at hf)
  | case3 c s op h hname ih => exact ih (by simpa [redirs_op h, hname] using hf)
  | case4 c s op h hname ih =>
    simp only [redirs_op h, hname, if_false, singleton_append, mem_cons] at hf
    rcases hf with rfl | hf
    · exact hname
    · exact ih hf

/-- The last redirection replaces the file of its kind. -/
theorem namedFiles_append (fs : List (RedirOp × List UInt8)) (op : RedirOp) (name : List UInt8) :
    namedFiles (fs ++ [(op, name)]) =
      match op with
      | .input => { namedFiles fs with input := some name }
      | .output => { namedFiles fs with output := some (name, false) }
      | .append => { namedFiles fs with output := some (name, true) } := by
  cases op <;> simp [namedFiles]

/-- The flags and buffers after a list of redirections. -/
structure Redirects.Holds (r : Redirects) (f : FileNames) : Prop where
  inFile : r.inFile = f.input.isSome
  outFile : r.outFile = f.output.isSome
  outAppend : r.outAppend = f.output.any (·.2)
  inBuf : r.inBuf.chars = (f.input.getD []).take 63
  outBuf : r.outBuf.chars = ((f.output.map (·.1)).getD []).take 63

theorem Redirects.Holds.fileNames {f : FileNames} (h : r.Holds f) : r.fileNames = f.cut := by
  rcases f with ⟨input, output⟩
  obtain ⟨hin, hout, happend, hinBuf, houtBuf⟩ := h
  rw [Redirects.fileNames, FileNames.cut, hin, hout, happend, hinBuf, houtBuf]
  cases input <;> cases output <;> rfl

/-- One more name. -/
theorem Redirects.Holds.note {fs : List (RedirOp × List UInt8)} (h : r.Holds (namedFiles fs))
    (op : RedirOp)
    {name : List UInt8} (hnul : ∀ c ∈ name, c ≠ 0) :
    (op.note name r).Holds (namedFiles (fs ++ [(op, name)])) := by
  have hchars : (CStr.ofBytes (name.take 63)).chars = name.take 63 :=
    CStr.chars_ofBytes fun c hc => hnul c (mem_of_mem_take hc)
  rw [namedFiles_append]
  cases op with
  | input => exact ⟨rfl, h.outFile, h.outAppend, hchars, h.outBuf⟩
  | output => exact ⟨h.inFile, rfl, rfl, h.inBuf, hchars⟩
  | append => exact ⟨h.inFile, rfl, rfl, h.inBuf, hchars⟩

theorem stripRedirects_holds (s : CStr) :
    (stripRedirects s.chars).2.Holds (namedFiles (redirs s.chars)) := by
  have hnul : ∀ f ∈ redirs s.chars, ∀ c ∈ f.2, c ≠ 0 :=
    fun f hf c hc => s.noNul c (mem_of_mem_redirs hf c hc)
  rw [stripRedirects, stripLoop_snd]
  revert hnul
  generalize redirs s.chars = fs
  intro hnul
  induction fs using List.reverseRecOn with
  | nil => exact ⟨rfl, rfl, rfl, rfl, rfl⟩
  | append_singleton fs f ih =>
    obtain ⟨hfs, hf⟩ := forall_mem_append.mp hnul
    rw [foldl_append]
    exact (ih hfs).note f.1 (hf f (by simp))

/-- The names fit into the buffers. -/
def FileNames.Fits (f : FileNames) : Prop :=
  (∀ name, f.input = some name → name.length ≤ 63) ∧ ∀ name a, f.output = some (name, a) →
    name.length ≤ 63

theorem FileNames.cut_eq_iff {f : FileNames} : f.cut = f ↔ f.Fits := by
  rcases f with ⟨input, output⟩
  rw [FileNames.ext_iff]
  refine and_congr ?_ ?_
  · cases input <;> simp [FileNames.cut]
  · rcases output with _ | ⟨name, a⟩ <;> simp [FileNames.cut]

theorem fits_namedFiles {fs : List (RedirOp × List UInt8)} (h : ∀ f ∈ fs, f.2.length ≤ 63) :
    (namedFiles fs).Fits := by
  constructor
  · intro name hname
    obtain ⟨f, hf, rfl⟩ := Option.map_eq_some_iff.mp hname
    exact h f (mem_of_mem_filter (List.mem_of_getLast? hf))
  · intro name a hname
    obtain ⟨f, hf, heq⟩ := Option.map_eq_some_iff.mp hname
    obtain rfl := congrArg Prod.fst heq
    exact h f (mem_of_mem_filter (List.mem_of_getLast? hf))

end

/-! ## what the command is taken for -/

/-- `strip_redirects` and `tokenise` read the command as it is written: the string keeps its
length, the words that are left are its arguments, and the pointers give the files of the
last operators, and whether the output is appended to. -/
structure ReadAsWritten (s : CStr) : Prop where
  length : (stripRedirects s.chars).1.length = s.length
  argv : tokenise 16 (stripRedirects s.chars).1 = args (lex s.chars)
  files : (stripRedirects s.chars).2.fileNames = namedFiles (files (lex s.chars))
  append : (stripRedirects s.chars).2.outAppend =
    (namedFiles (AliOS.files (lex s.chars))).output.any (·.2)

/-- **A command in a line is read as it is written exactly if its file names fit into the
buffers and its arguments into `argv`.**  No file name may contain an operator. -/
theorem stripRedirects_readAsWritten {s : CStr} (hlen : s.length ≤ 77)
    (hplain : PlainNames s.chars) :
    ReadAsWritten s ↔
      (∀ f ∈ redirs s.chars, f.2.length ≤ 63) ∧ (args (lex s.chars)).length ≤ 16 := by
  have hfiles : files (lex s.chars) = redirs s.chars := files_lexFrom [] hplain
  have hwords : tokenise 16 (stripRedirects s.chars).1 =
      (keepWords leftover (lex s.chars)).take 16 := by
    rw [tokenise_eq, ← wordsFrom_empty, stripRedirects, wordsFrom_stripLoop _ _ hplain, lex]
  constructor
  · intro h
    have hargv := congrArg List.length (hwords.symm.trans h.argv)
    rw [length_take] at hargv
    refine ⟨fun f hf => ?_, by omega⟩
    -- a rest of the name takes the place of an argument, for 16 of which there is no room then
    by_contra hlong
    rw [← hfiles] at hf
    have hmore := length_args_lt hf (by omega)
    have hline := (length_args_le (ne_nil_of_mem_lexFrom [] s.chars)).2 _ hf
    have hletters := letters_lexFrom_le [] s.chars
    have hlength : s.chars.length ≤ 77 := hlen
    simp only [lex, length_nil] at hargv hline hletters hmore
    omega
  · rintro ⟨hshort, hargs⟩
    have hholds := stripRedirects_holds s
    refine ⟨length_stripLoop _ _, ?_, ?_, ?_⟩
    · rw [hwords, keepWords_leftover (by rwa [hfiles]), List.take_of_length_le hargs]
    · rw [hholds.fileNames, FileNames.cut_eq_iff.mpr (fits_namedFiles hshort), hfiles]
    · rw [hholds.outAppend, hfiles]

theorem stripRedirects_readAsWritten_cat : ReadAsWritten (.ascii "cat<in >a notes >>out") :=
  (stripRedirects_readAsWritten (by decide) (by decide +kernel)).mpr ⟨by decide +kernel,
    by decide +kernel⟩

/-- A command without arguments: an operator and a file name of 64 characters, of which the
last one is taken for an argument. -/
def longTarget : CStr := ⟨greater :: List.replicate 64 120, by simp [greater]⟩

theorem stripRedirects_longTarget : longTarget.length ≤ 77 ∧ PlainNames longTarget.chars ∧
    args (lex longTarget.chars) = [] ∧ tokenise 16 (stripRedirects longTarget.chars).1 = [[120]] ∧
    ¬ReadAsWritten longTarget := by
  have hplain : PlainNames longTarget.chars := by decide +kernel
  have hargs : args (lex longTarget.chars) = [] := by decide +kernel
  have hargv : tokenise 16 (stripRedirects longTarget.chars).1 = [[120]] := by decide +kernel
  refine ⟨by decide, hplain, hargs, hargv, fun h => ?_⟩
  have heq := h.argv
  simp [hargv, hargs] at heq

end AliOS
