import AliOS.Lib.Split
import AliOS.Shell.Line
import AliOS.Shell.Redirect
import AliOS.System.Reading

/-!
# AliOS.Shell.Script

`sh <file>` (`kernel/shell.c`).  `cmd_script` reads the file 128 bytes at a time and collects
characters in `lbuf`, which has room for 77.  At the end of a line it processes the buffer:
it skips blanks and passes the rest on to `dispatch`, unless nothing is left or it is a
comment.

It processes the buffer also when a character comes for which there is no room, and drops
the character.  So the commands are the lines of the file, wherever the reads cut it, as
long as no line has more than 77 characters: `cmdScript_iff`.
-/

namespace AliOS

open Lib List

/-! ## cmd_script -/

/-- The characters '\t', '\n', '\r' and '#'. -/
def tab : UInt8 := 9
def newline : UInt8 := 10
def carriageReturn : UInt8 := 13
def hash : UInt8 := 35

def isBlank (c : UInt8) : Bool := c == space || c == tab

/-- What is executed of the line in `lbuf`: `s` behind the blanks, copied to `tmp`. -/
def lineCommand (lbuf : List UInt8) : Option CStr :=
  let s := (CStr.ofBytes lbuf).chars.dropWhile isBlank
  if s = [] ∨ s.head? = some hash then none else some (CStr.ofBytes (s.take (lineMax + 1)))

/-- The variables of `cmd_script` and the file system, with what has been executed so far and,
for the statements, what was in `lbuf` each time that it was processed. -/
structure Script where
  fs : Fs
  lbuf : List UInt8
  processed : List (List UInt8)
  dispatched : List CStr

section

/- What the commands do to the file system: `dispatch` is given all the strings that have been
passed on, up to the last one. -/
variable (dispatch : List CStr → Fs → Fs)

/-- The end of a line. -/
def Script.process (st : Script) : Script :=
  let done := { st with lbuf := [], processed := st.processed ++ [st.lbuf] }
  match lineCommand st.lbuf with
  | none => done
  | some tmp =>
    { done with
      fs := dispatch (st.dispatched ++ [tmp]) st.fs, dispatched := st.dispatched ++ [tmp] }

/-- The body of the loop over a chunk. -/
def Script.put (st : Script) (c : UInt8) : Script :=
  if c = carriageReturn then st
  else if c = newline ∨ lineMax ≤ st.lbuf.length then st.process dispatch
  else { st with lbuf := st.lbuf ++ [c] }

/-- The loop over the file. -/
def scriptLoop (idx : Int) (size off : Nat) (st : Script) : Script :=
  if _h : off < size then
    match alfsPread st.fs idx (min (size - off) 128) off with
    | ((got, rbuf), fs) =>
      if _hgot : got ≤ 0 then { st with fs := fs }
      else scriptLoop idx size (off + got.toNat)
        (rbuf.foldl (Script.put dispatch) { st with fs := fs })
  else st
termination_by size - off

/-- Behind the loop: the last line, if it has no newline. -/
def Script.finish (st : Script) : Script := if st.lbuf = [] then st else st.process dispatch

/-- What `cmd_script` does: it complains, or has run the file. -/
inductive ScriptResult where
  | usage
  | notFound (arg : CStr)
  | ran (st : Script)

def cmdScript (fs : Fs) (cwd arg : CStr) : ScriptResult :=
  if arg.chars = [] then .usage
  else
    let idx := alfsFind fs (some (pathResolve cwd arg))
    if idx < 0 then .notFound arg
    else
      let size := alfsSize fs idx
      if size = 0 then .ran ⟨fs, [], [], []⟩
      else
        .ran ((scriptLoop dispatch idx size 0 ⟨fs, [], [], []⟩).finish dispatch)

end

/-! ## the lines of a file -/

/-- The lines of a script: what stands between newlines, without carriage returns.  Behind the
last newline there is a line only if there is a character. -/
def scriptLines (bytes : List UInt8) : List (List UInt8) :=
  let pieces := (bytes.filter (· != carriageReturn)).splitOn newline
  if pieces.getLast? = some [] then pieces.dropLast else pieces

/-- The command in a line: what stands behind the blanks, unless it is nothing or a comment. -/
def commandOf (line : List UInt8) : Option (List UInt8) :=
  let s := line.dropWhile isBlank
  if s = [] ∨ s.head? = some hash then none else some s

/-- The script was executed line by line: every line was in the buffer as a whole, and the
strings passed to `dispatch` are the commands in the lines. -/
structure RunsLines (st : Script) (bytes : List UInt8) : Prop where
  processed : st.processed = scriptLines bytes
  dispatched : st.dispatched.map CStr.chars = (scriptLines bytes).filterMap commandOf

/-- Entry `i` is a file with these bytes, which can be read, and no transfer fails. -/
structure HoldsFile (bytes : List UInt8) (i : Nat) (fs : Fs) : Prop where
  quiet : QuietEntry fs i
  readable : Readable fs i
  bytes : fileBytes fs i = bytes

section

variable {dispatch : List CStr → Fs → Fs} {st : Script} {bytes s : List UInt8} {i : Nat} {fs : Fs}

/-! ## one character -/

theorem Script.process_lbuf : (st.process dispatch).lbuf = [] := by
  unfold Script.process
  split <;> rfl

theorem Script.process_processed : (st.process dispatch).processed = st.processed ++ [st.lbuf] := by
  unfold Script.process
  split <;> rfl

theorem Script.process_dispatched :
    (st.process dispatch).dispatched = st.dispatched ++ (lineCommand st.lbuf).toList := by
  unfold Script.process
  split <;> rename_i h <;> simp [h]

/-- What holds all the time: nothing too long is in the buffer or was processed, and the
commands of what was processed are executed. -/
structure Script.Sound (st : Script) : Prop where
  room : st.lbuf.length ≤ lineMax
  short : ∀ l ∈ st.processed, l.length ≤ lineMax
  commands : st.dispatched = st.processed.filterMap lineCommand

theorem Script.Sound.process (h : st.Sound) : (st.process dispatch).Sound where
  room := by simp [Script.process_lbuf]
  short := by
    rw [Script.process_processed]
    exact forall_mem_append.mpr ⟨h.short, by simpa using h.room⟩
  commands := by
    rw [Script.process_processed, Script.process_dispatched, h.commands, filterMap_append]
    cases hc : lineCommand st.lbuf <;> simp [hc]

theorem Script.Sound.put (h : st.Sound) (c : UInt8) : (st.put dispatch c).Sound := by
  unfold Script.put
  split_ifs with hcr hfull
  · exact h
  · exact h.process
  · exact ⟨by simp; omega, h.short, h.commands⟩

theorem Script.Sound.foldl (h : st.Sound) (s : List UInt8) :
    (s.foldl (Script.put dispatch) st).Sound := by
  induction s generalizing st with
  | nil => exact h
  | cons c _ ih => exact ih (h.put c)

/-- The file stays as it is. -/
theorem HoldsFile.put (hkeep : ∀ log fs, HoldsFile bytes i fs → HoldsFile bytes i (dispatch log fs))
    (h : HoldsFile bytes i st.fs) (c : UInt8) : HoldsFile bytes i (st.put dispatch c).fs := by
  unfold Script.put
  split_ifs
  · exact h
  · unfold Script.process
    split
    · exact h
    · exact hkeep _ _ h
  · exact h

theorem HoldsFile.foldl (hkeep : ∀ log fs, HoldsFile bytes i fs →
    HoldsFile bytes i (dispatch log fs)) (h : HoldsFile bytes i st.fs) (s : List UInt8) :
    HoldsFile bytes i (s.foldl (Script.put dispatch) st).fs := by
  induction s generalizing st with
  | nil => exact h
  | cons c _ ih => exact ih (h.put hkeep c)

/-! ## the whole file -/

theorem HoldsFile.length (h : HoldsFile bytes i fs) : entrySize fs.dir i = bytes.length := by
  rw [← h.bytes, fileBytes, length_slice]

theorem HoldsFile.alfsSize (h : HoldsFile bytes i fs) : alfsSize fs i = bytes.length := by
  have hlt := h.quiet.lt
  rw [← h.length, AliOS.alfsSize, if_neg (by simp [h.quiet.ready]; omega)]
  simp [h.quiet.used]

/-- The chunks make no difference. -/
theorem scriptLoop_eq (hkeep : ∀ log fs, HoldsFile bytes i fs → HoldsFile bytes i (dispatch log fs))
    (h : HoldsFile bytes i st.fs) (off : Nat) :
    scriptLoop dispatch i bytes.length off st = (bytes.drop off).foldl (Script.put dispatch)
      st := by
  induction hn : bytes.length - off using Nat.strongRecOn generalizing off st with
  | ind n ih =>
    rw [scriptLoop]
    by_cases hoff : off < bytes.length
    · have hread := h.readable.alfsPread h.quiet (min (bytes.length - off) 128) off
      rw [h.length, h.bytes] at hread
      have hchunk : min (min (bytes.length - off) 128) (bytes.length - off) =
          min (bytes.length - off) 128 :=
        Nat.min_eq_left (Nat.min_le_left _ _)
      rw [hchunk] at hread
      rw [dif_pos hoff, hread]
      dsimp only
      rw [dif_neg (by omega), Int.toNat_natCast, ih _ (by omega) (h.foldl hkeep _) _ rfl,
        ← foldl_append, ← drop_drop, take_append_drop]
    · rw [dif_neg hoff, drop_eq_nil_of_le (by omega)]
      rfl

/-- What is in the buffer and was processed, if every line fits. -/
theorem Script.foldl_processed (dispatch : List CStr → Fs → Fs) (st : Script)
    (hcr : ∀ c ∈ s, c ≠ carriageReturn)
    (hshort : ∀ l ∈ splitFrom (· == newline) st.lbuf s, l.length ≤ lineMax) :
    (s.foldl (Script.put dispatch) st).processed ++ [(s.foldl (Script.put dispatch) st).lbuf] =
      st.processed ++ splitFrom (· == newline) st.lbuf s := by
  induction s generalizing st with
  | nil => simp
  | cons c s ih =>
    obtain ⟨hc, hs⟩ := forall_mem_cons.mp hcr
    rw [foldl_cons]
    by_cases hnl : c = newline
    · have hput : st.put dispatch c =
          st.process dispatch := by rw [Script.put, if_neg hc, if_pos (.inl hnl)]
      rw [splitFrom_cons, if_pos (by simpa using hnl)] at hshort ⊢
      have hrest : ∀ l ∈ splitFrom (· == newline) (st.process dispatch).lbuf s,
          l.length ≤ lineMax := by
        rw [Script.process_lbuf]
        exact fun l hl => hshort l (.tail _ hl)
      rw [hput, ih _ hs hrest, Script.process_processed, Script.process_lbuf]
      simp
    · rw [splitFrom_cons, if_neg (by simpa using hnl)] at hshort ⊢
      -- the character belongs to a line that fits, so there is room for it
      obtain ⟨l, hl, hpre⟩ := exists_splitFrom_prefix (· == newline) (st.lbuf ++ [c]) s
      have hroom := hpre.length_le.trans (hshort l hl)
      rw [length_append, length_singleton] at hroom
      have hput : st.put dispatch c = { st with lbuf := st.lbuf ++ [c] } := by
        simp [Script.put, hc, hnl]
        omega
      rw [hput, ih _ hs hshort]

theorem Script.foldl_filter (st : Script) (s : List UInt8) : s.foldl (Script.put dispatch) st =
    (s.filter (· != carriageReturn)).foldl (Script.put dispatch) st := by
  induction s generalizing st with
  | nil => rfl
  | cons c s ih =>
    by_cases hc : c = carriageReturn
    · simp [hc, ih, Script.put]
    · simp [hc, ih]

theorem chars_lineCommand {l : List UInt8} (hnul : ∀ c ∈ l, c ≠ 0) (hlen : l.length ≤ lineMax) :
    (lineCommand l).map CStr.chars = commandOf l := by
  have hsub := (dropWhile_suffix (l := l) isBlank).sublist
  have htake : (l.dropWhile isBlank).take (lineMax + 1) = l.dropWhile isBlank :=
    List.take_of_length_le (by have := hsub.length_le; omega)
  unfold lineCommand commandOf
  rw [CStr.chars_ofBytes hnul]
  dsimp only
  rw [htake]
  split
  · rfl
  · rw [Option.map_some, CStr.chars_ofBytes fun c hc => hnul c (hsub.subset hc)]

theorem scriptLines_append {ls : List (List UInt8)} {l : List UInt8}
    (h : (bytes.filter (· != carriageReturn)).splitOn newline = ls ++ [l]) :
    scriptLines bytes = if l = [] then ls else ls ++ [l] := by
  simp [scriptLines, h]

theorem Script.finish_processed : (st.finish dispatch).processed =
    if st.lbuf = [] then st.processed else st.processed ++ [st.lbuf] := by
  unfold Script.finish
  split
  · rfl
  · exact Script.process_processed

theorem Script.Sound.finish (h : st.Sound) : (st.finish dispatch).Sound := by
  unfold Script.finish
  split
  · exact h
  · exact h.process

/-- The buffers of a script whose lines fit are its lines. -/
theorem finish_foldl_processed (dispatch : List CStr → Fs → Fs) (fs : Fs)
    (h : ∀ l ∈ scriptLines bytes, l.length ≤ lineMax) :
    ((bytes.foldl (Script.put dispatch) ⟨fs, [], [], []⟩).finish dispatch).processed =
      scriptLines bytes := by
  set s := bytes.filter (· != carriageReturn)
  have hcr : ∀ c ∈ s, c ≠ carriageReturn := fun c hc => by simpa using (mem_filter.mp hc).2
  have hpieces : splitFrom (· == newline) [] s = s.splitOn newline := splitFrom_empty _ _
  -- the line that is left out is empty
  have hshort : ∀ l ∈ s.splitOn newline, l.length ≤ lineMax := by
    rcases eq_nil_or_concat (s.splitOn newline) with hnil | ⟨ls, l, hconcat⟩
    · simp [hnil]
    · rw [concat_eq_append] at hconcat
      rw [scriptLines_append hconcat] at h
      rw [hconcat]
      split at h
      · rename_i hl
        exact forall_mem_append.mpr ⟨h, by simp [hl]⟩
      · exact h
  have hrun := Script.foldl_processed dispatch ⟨fs, [], [], []⟩ hcr (by rwa [hpieces])
  rw [hpieces, nil_append] at hrun
  rw [Script.finish_processed, Script.foldl_filter, scriptLines_append hrun.symm]

theorem nulFree_of_mem_scriptLines (hnul : ∀ c ∈ bytes, c ≠ 0) {l : List UInt8}
    (hl : l ∈ scriptLines bytes) :
    ∀ c ∈ l, c ≠ 0 := by
  have hpiece : l ∈ splitFrom (· == newline) [] (bytes.filter (· != carriageReturn)) := by
    rw [splitFrom_empty]
    unfold scriptLines at hl
    dsimp only at hl
    split at hl
    · exact mem_of_mem_dropLast hl
    · exact hl
  intro c hc
  have hmem := (mem_of_mem_splitFrom hpiece c hc).resolve_left (by simp)
  exact hnul c (mem_of_mem_filter hmem)

theorem cmdScript_eq {cwd arg : CStr} (harg : arg.chars ≠ [])
    (hfind : alfsFind fs (some (pathResolve cwd arg)) = i) (hfile : HoldsFile bytes i fs)
    (hkeep : ∀ log fs, HoldsFile bytes i fs → HoldsFile bytes i (dispatch log fs)) :
    cmdScript dispatch fs cwd arg =
      .ran ((bytes.foldl (Script.put dispatch) ⟨fs, [], [], []⟩).finish dispatch) := by
  unfold cmdScript
  rw [if_neg harg, hfind]
  dsimp only
  rw [if_neg (by omega), hfile.alfsSize]
  split
  · rename_i hnil
    rw [length_eq_zero_iff.mp hnil]
    rfl
  · rw [scriptLoop_eq hkeep hfile, drop_zero]

/-- **A script is executed line by line exactly if no line has more than 77 characters.**  It
has no NUL bytes, can be read, and the commands in it leave it as it is.  The reads of 128
bytes may cut it anywhere. -/
theorem cmdScript_iff {cwd arg : CStr} (harg : arg.chars ≠ [])
    (hfind : alfsFind fs (some (pathResolve cwd arg)) = i) (hfile : HoldsFile bytes i fs)
    (hnul : ∀ c ∈ bytes, c ≠ 0)
    (hkeep : ∀ log fs, HoldsFile bytes i fs → HoldsFile bytes i (dispatch log fs)) :
    ∃ st, cmdScript dispatch fs cwd arg = .ran st ∧
      (RunsLines st bytes ↔ ∀ l ∈ scriptLines bytes, l.length ≤ lineMax) := by
  have hstart : (⟨fs, [], [], []⟩ : Script).Sound := ⟨Nat.zero_le _, by simp, rfl⟩
  have hsound : ((bytes.foldl (Script.put dispatch) ⟨fs, [], [], []⟩).finish dispatch).Sound :=
    (hstart.foldl bytes).finish
  refine ⟨_, cmdScript_eq harg hfind hfile hkeep, fun h l hl => ?_, fun h => ?_⟩
  · rw [← h.processed] at hl
    exact hsound.short l hl
  · have hlines := finish_foldl_processed dispatch fs h
    refine ⟨hlines, ?_⟩
    rw [hsound.commands, hlines, map_filterMap]
    exact filterMap_congr fun l hl => chars_lineCommand (nulFree_of_mem_scriptLines hnul hl)
      (h l hl)

end

/-! ## scripts of one letter -/

/-- A disk full of the letter 'a', and on it the file "/a" with so many bytes. -/
def scriptFs (size : Nat) : Fs where
  ready := true
  super := fun _ => 0
  dir := setEntry (fun _ => 0) 0 pathA 7 size alfsFlagUsed
  disk := ⟨fun _ => 97, []⟩

/-- "sh /a" executes one command. -/
theorem cmdScript_iff_five :
    ∃ st, cmdScript (fun _ fs => fs) (scriptFs 5) rootPath pathA = .ran st ∧
    RunsLines st (List.replicate 5 97) := by
  have hfile : HoldsFile (List.replicate 5 97) 0 (scriptFs 5) :=
    ⟨⟨rfl, by decide, by decide +kernel, rfl⟩, ⟨by decide +kernel, .inr (by decide +kernel)⟩,
      by decide +kernel⟩
  obtain ⟨st, hran, hiff⟩ : ∃ st, cmdScript (fun _ fs => fs) (scriptFs 5) rootPath pathA = .ran st ∧
      (RunsLines st (List.replicate 5 97) ↔ ∀ l ∈ scriptLines (List.replicate 5 97),
        l.length ≤ lineMax) :=
    cmdScript_iff (by decide) (by decide +kernel) hfile (by simp) fun _ _ h => h
  exact ⟨st, hran, hiff.mpr (by decide +kernel)⟩

/-- A line of 80 letters makes two commands, and one letter is gone. -/
theorem cmdScript_splits : ∃ st, cmdScript (fun _ fs => fs) (scriptFs 80) rootPath pathA = .ran st ∧
    fileBytes (scriptFs 80) 0 = List.replicate 80 97 ∧
      scriptLines (List.replicate 80 97) = [List.replicate 80 97] ∧
    st.dispatched.map CStr.chars = [List.replicate 77 97, List.replicate 2 97] := by
  have hfile : HoldsFile (List.replicate 80 97) 0 (scriptFs 80) :=
    ⟨⟨rfl, by decide, by decide +kernel, rfl⟩, ⟨by decide +kernel, .inr (by decide +kernel)⟩,
      by decide +kernel⟩
  refine ⟨_, cmdScript_eq (by decide) (by decide +kernel) hfile fun _ _ h => h, hfile.bytes, ?_, ?_⟩
  · decide +kernel
  · decide +kernel

end AliOS
