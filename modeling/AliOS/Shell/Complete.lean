import Mathlib.Data.List.DropRight
import AliOS.Shell.Line
import AliOS.Shell.Pipeline

/-!
# AliOS.Shell.Complete

The Tab key (`kernel/shell.c`).  `tab_complete` takes the word in front of the cursor for the
beginning of a name.  It collects the names that begin so in a table, at most 24: for the
first word of the line commands, that is built-in ones and programs in `/bin`, and otherwise
the entries of the directory that the word begins with.  Then it inserts what all the names
in the table have in common.

What is inserted is right for every name in the table.  But the table may be full, ten of the
commands that `dispatch` knows are not looked for at all, long words and names are cut, and so
names that could be meant are missing.  `tabComplete_iff` says what depends on these.
-/

namespace AliOS

open Lib List Option

/-! ## the commands -/

/-- The commands of `dispatch`, in its order. -/
inductive Builtin where
  | help | clear | ls | cd | pwd | mkdir | rmdir | touch | run | rm | ps | top | htop | kill
  | killall | mem | df | uname | uptime | stat | history | date | sleep | find | which | nano
  | sh | shutdown | reboot | cp | mv
deriving DecidableEq

def Builtin.name : Builtin → CStr
  | .help => .ascii "help"
  | .clear => .ascii "clear"
  | .ls => .ascii "ls"
  | .cd => .ascii "cd"
  | .pwd => .ascii "pwd"
  | .mkdir => .ascii "mkdir"
  | .rmdir => .ascii "rmdir"
  | .touch => .ascii "touch"
  | .run => .ascii "run"
  | .rm => .ascii "rm"
  | .ps => .ascii "ps"
  | .top => .ascii "top"
  | .htop => .ascii "htop"
  | .kill => .ascii "kill"
  | .killall => .ascii "killall"
  | .mem => .ascii "mem"
  | .df => .ascii "df"
  | .uname => .ascii "uname"
  | .uptime => .ascii "uptime"
  | .stat => .ascii "stat"
  | .history => .ascii "history"
  | .date => .ascii "date"
  | .sleep => .ascii "sleep"
  | .find => .ascii "find"
  | .which => .ascii "which"
  | .nano => .ascii "nano"
  | .sh => .ascii "sh"
  | .shutdown => .ascii "shutdown"
  | .reboot => .ascii "reboot"
  | .cp => .ascii "cp"
  | .mv => .ascii "mv"

/-- The table `builtins` of `tab_complete`. -/
def tabBuiltins : List Builtin :=
  [.help, .clear, .ls, .cd, .pwd, .mkdir, .rmdir, .touch, .rm, .cp, .run, .ps, .kill, .mem, .df,
    .uname, .uptime, .nano, .sh, .shutdown, .reboot]

/-! ## the table of names -/

/-- `TAB_MAX`. -/
def tabMax : Nat := 24

/-- `sh_hasprefix`. -/
def hasPrefix (s pre : CStr) : Bool := pre.chars.isPrefixOf s.chars

/-- The name in entry `i`, and whether it is a directory. -/
def entryAt (fs : Fs) (i : Nat) : Option (CStr × Bool) :=
  (alfsStat fs i).map fun e => (CStr.ofBytes e.1, alfsIsDir fs i)

/-- One turn of the loop over `builtins`. -/
def tabBuiltin (leaf : CStr) (ms : List CStr) (b : Builtin) : List CStr :=
  if ms.length < tabMax ∧ hasPrefix b.name leaf then ms ++ [b.name.take (alfsNameMax - 1)] else ms

/-- One turn of the loop over the programs in `/bin`. -/
def tabProgram (fs : Fs) (leaf : CStr) (ms : List CStr) (i : Nat) : List CStr :=
  match entryAt fs i with
  | some (name, false) =>
    let lf := pathBasename name
    if ms.length < tabMax ∧ pathParent name = binPath ∧ hasPrefix lf leaf ∧ lf ∉ ms then
      ms ++ [lf.take (alfsNameMax - 1)]
    else ms
  | _ => ms

/-- What the table holds for an entry: at most 50 characters, and a slash for a directory. -/
def entryLabel (lf : CStr) (isDir : Bool) : CStr :=
  CStr.ofBytes (lf.chars.take (alfsNameMax - 2) ++ if isDir then [slash] else [])

/-- One turn of the loop over the entries of a directory. -/
def tabEntry (fs : Fs) (dir leaf : CStr) (ms : List CStr) (i : Nat) : List CStr :=
  match entryAt fs i with
  | some (name, isDir) =>
    let lf := pathBasename name
    if ms.length < tabMax ∧ pathParent name = dir ∧ hasPrefix lf leaf then
      ms ++ [entryLabel lf isDir]
    else ms
  | none => ms

/-- `slash + 1`: the place behind the last slash among the first `n` characters, or 0. -/
def leafStart (pre : List UInt8) : Nat → Nat
  | 0 => 0
  | n + 1 => if pre[n]? = some slash then n + 1 else leafStart pre n

/-- The string ".". -/
def dotPath : CStr := ⟨[dot], by simp [dot]⟩

/-- The directory to search in.  Of the word 63 characters are looked at. -/
def tabDir (cwd : CStr) (pre : List UInt8) : CStr :=
  let n := leafStart pre pre.length
  if n = 0 then pathResolve cwd dotPath else pathResolve cwd (CStr.ofBytes (pre.take (min n 63)))

/-- The typed part of the last component. -/
def tabLeaf (isCmd : Bool) (pre : List UInt8) : List UInt8 :=
  if isCmd then pre else pre.drop (leafStart pre pre.length)

/-- `tab_matches`, for a word that is a command or not. -/
def tabMatches (fs : Fs) (cwd : CStr) (isCmd : Bool) (pre : List UInt8) : List CStr :=
  let leaf := CStr.ofBytes (tabLeaf isCmd pre)
  if isCmd then
    (List.range' 0 alfsMaxFiles).foldl (tabProgram fs leaf) (tabBuiltins.foldl (tabBuiltin leaf) [])
  else (List.range' 0 alfsMaxFiles).foldl (tabEntry fs (tabDir cwd pre) leaf) []

/-! ## tab_complete -/

/-- `while (ws > 0 && line[ws - 1] != ' ') ws--;` -/
def wordStart (b : List UInt8) (ws : Int) : Option Int :=
  if _h : 0 < ws then
    (peek b (ws - 1)).bind fun c => if c = space then some ws else wordStart b (ws - 1)
  else some ws
termination_by ws.toNat

/-- `while (j < common && tab_matches[0][j] == tab_matches[i][j]) j++;` -/
def commonTo (first m : CStr) (common j : Nat) : Nat :=
  if j < common ∧ first.get j = m.get j then commonTo first m common (j + 1) else j
termination_by common - j

/-- The length of what all the names have in common, of which `leafLen` characters are typed. -/
def tabCommon (leafLen : Nat) (first : CStr) (rest : List CStr) : Nat :=
  rest.foldl (fun common m => commonTo first m common leafLen) first.length

/-- What is to be inserted for the names in the table, and whether a space follows. -/
def tabInsertion (leafLen : Nat) (ms : List CStr) : List UInt8 × Bool :=
  match ms with
  | [] => ([], false)
  | first :: rest =>
    let ins := (first.chars.take (tabCommon leafLen first rest)).drop leafLen
    (ins, rest.isEmpty && !ins.isEmpty && first.chars.getLast? != some slash)

/-- The insertion. -/
def Line.insertText (l : Line) (ins : List UInt8) (addSpace : Bool) : Option Line :=
  let total := ins.length + if addSpace then 1 else 0
  -- for (int i = len; i >= pos; i--) line[i + total] = line[i];
  (countDown (copyCell 0 total) (l.len - l.pos + 1).toNat l.len l.line).bind fun line =>
    (pokeAll line l.pos ins).bind fun line =>
      (if addSpace then poke line (l.pos + ins.length) space else some line).bind fun line =>
        { l with line := line, pos := l.pos + total, len := l.len + total }.redraw

/-- The end of `tab_complete`: the text is inserted if there is room for it, and several names
are shown. -/
def Line.useMatches (l : Line) (leafLen : Nat) (ms : List CStr) : Option (Line × List CStr) :=
  let res := tabInsertion leafLen ms
  let total : Nat := res.1.length + if res.2 then 1 else 0
  let done := if res.1 ≠ [] ∧ l.len + total ≤ lineMax then l.insertText res.1 res.2 else some l
  done.bind fun l => if 1 < ms.length then l.redraw.map (·, ms) else some (l, [])

/-- `tab_complete`: the line, and the names that are shown. -/
def Line.tabComplete (fs : Fs) (cwd : CStr) (l : Line) : Option (Line × List CStr) :=
  (wordStart l.line l.pos).bind fun ws =>
  (peekRange l.line ws (l.pos - ws).toNat).bind fun pre =>
  (peekRange l.line 0 ws.toNat).bind fun head =>
    let isCmd := head.all (· == space)
    l.useMatches (tabLeaf isCmd pre).length (tabMatches fs cwd isCmd pre)

/-! ## what could be meant -/

section

variable (fs : Fs) (cwd : CStr) (t : Cursor UInt8)

/-- The word in front of the cursor. -/
def typedWord : List UInt8 := t.before.rtakeWhile (· != space)

/-- Only spaces stand before it. -/
def firstWord : Bool := (t.before.rdropWhile (· != space)).all (· == space)

/-- The beginning of the name that is looked for. -/
def typedLeaf : List UInt8 :=
  if firstWord t then typedWord t else (typedWord t).rtakeWhile (· != slash)

end

/-! ## the words of the line -/

section

variable {b pre : List UInt8} {p n : Nat}

theorem wordStart_eq (h : p ≤ b.length) :
    wordStart b p = some (((b.take p).rdropWhile (· != space)).length : Int) := by
  induction p with
  | zero => rw [wordStart]; simp
  | succ p ih =>
    have hp : p < b.length := h
    have hlast : ((p + 1 : Nat) : Int) - 1 = p := by omega
    rw [wordStart, dif_pos (by omega), hlast, peek_natCast, List.getElem?_eq_getElem hp, bind_some,
      ih (by omega), take_succ_eq_append_getElem hp, rdropWhile_concat]
    by_cases hc : b[p] = space
    · simp [hc, Nat.min_eq_left hp.le]
    · simp [hc]

theorem leafStart_eq (h : n ≤ pre.length) :
    leafStart pre n = ((pre.take n).rdropWhile (· != slash)).length := by
  induction n with
  | zero => rfl
  | succ n ih =>
    rw [leafStart, ih (by omega), take_succ_eq_append_getElem h, rdropWhile_concat,
      List.getElem?_eq_getElem h]
    by_cases hc : pre[n] = slash
    · simp [hc, Nat.min_eq_left (Nat.le_of_succ_le h)]
    · simp [hc]

theorem drop_leafStart (pre : List UInt8) :
    pre.drop (leafStart pre pre.length) = pre.rtakeWhile (· != slash) := by
  have hdrop : (pre.rdropWhile (· != slash) ++ pre.rtakeWhile (· != slash)).drop
      (pre.rdropWhile (· != slash)).length = pre.rtakeWhile (· != slash) := drop_left
  rw [leafStart_eq le_rfl, take_length]
  rwa [rdropWhile_append_rtakeWhile] at hdrop

end

/-! ## what is in the table -/

section

variable {α ι : Type}

end

section

variable {fs : Fs} {cwd m : CStr} {t : Cursor UInt8}

/-- The table for a text. -/
def tabTable (fs : Fs) (cwd : CStr) (t : Cursor UInt8) : List CStr :=
  tabMatches fs cwd (firstWord t) (typedWord t)

theorem tabLeaf_eq (t : Cursor UInt8) : tabLeaf (firstWord t) (typedWord t) = typedLeaf t := by
  rw [tabLeaf, typedLeaf, drop_leafStart]

end

/-! ## what the names have in common -/

section

variable {first m : CStr} {rest : List CStr} {leaf : List UInt8} {common j : Nat}

end

/-! ## the line -/

section

variable {l : Line} {t : Cursor UInt8} {fs : Fs} {cwd : CStr}

/-- The inserted text with its space. -/
def withSpace (ins : List UInt8) (addSpace : Bool) : List UInt8 :=
  ins ++ if addSpace then [space] else []

theorem Line.Reads.insertText (h : l.Reads t) {ins : List UInt8} {addSpace : Bool}
    (hfit : t.text.length + (withSpace ins addSpace).length ≤ lineMax) :
    ∃ l', l.insertText ins addSpace = some l' ∧
      l'.Holds (t.insertAll (withSpace ins addSpace)) := by
  have hlen := h.len
  have hpos := h.pos
  have hsize := h.size
  have hle := t.le
  have htotal : ins.length + (if addSpace then 1 else 0) = (withSpace ins addSpace).length := by
    cases addSpace <;> simp [withSpace]
  have hcount : (l.len - l.pos + 1).toNat = t.text.length - t.pos + 1 := by omega
  have hinsert := t.length_insertAll (withSpace ins addSpace)
  generalize hcs : withSpace ins addSpace = cs at hfit htotal hinsert ⊢
  have hloop := countDown_copyCell (b := l.line) (i := l.len) (p := t.pos) (q := t.pos + cs.length)
    (s := 0)
    (d := cs.length) (n := t.text.length - t.pos + 1) (by omega) (by omega) (by omega) (by omega)
  set moved := overwrite l.line (t.pos + cs.length)
    ((l.line.drop t.pos).take (t.text.length - t.pos + 1))
  have hmoved : moved.length = l.line.length := length_overwrite (by simp; omega)
  have hfill : (pokeAll moved t.pos ins).bind (fun line =>
      if addSpace then poke line (t.pos + ins.length) space else some line) =
        some (overwrite moved t.pos cs) := by
    rw [pokeAll_eq (by omega), bind_some, ← hcs, withSpace]
    cases addSpace with
    | false => simp
    | true =>
      have hroom : (overwrite moved t.pos ins).length = moved.length := length_overwrite (by omega)
      rw [if_pos rfl, if_pos rfl, ← overwrite_append (by omega), ← Int.natCast_add,
        poke_natCast (by simp at htotal; omega)]
  have hline : l.insertText ins addSpace =
      { l with
        line := overwrite moved t.pos cs, pos := l.pos + cs.length,
        len := l.len + cs.length }.redraw := by
    unfold Line.insertText
    dsimp only
    rw [htotal, hcount, hloop, bind_some, hpos, ← bind_assoc, hfill, bind_some]
  rw [hline]
  refine Line.Reads.redraw ⟨?_, ?_, ?_, ?_, by omega⟩
  · rw [length_overwrite (by omega), hmoved, hsize]
  · exact Cursor.insertAll_prefix h.text (by omega) (by omega)
  · dsimp only
    omega
  · rw [hpos]
    rfl

/-- The three reads of the line: the start of the word, the word, and what stands before it. -/
theorem Line.Reads.words (h : l.Reads t) : ∃ w : Nat, wordStart l.line l.pos = some (w : Int) ∧
    peekRange l.line w (l.pos - w).toNat = some (typedWord t) ∧
    peekRange l.line 0 w = some (t.before.rdropWhile (· != space)) := by
  have hpos := h.pos
  have hsize := h.size
  have hroom := h.room
  have hle := t.le
  have hbefore : l.line.take t.pos = t.before := (Cursor.before_eq h.text).symm
  have hsplit : t.before.rdropWhile (· != space) ++ typedWord t = t.before :=
    rdropWhile_append_rtakeWhile
  have hw := congrArg List.length hsplit
  rw [length_append, t.length_before] at hw
  set w := (t.before.rdropWhile (· != space)).length
  have hcount : (l.pos - w).toNat = t.pos - w := by omega
  refine ⟨w, ?_, ?_, ?_⟩
  · rw [hpos, wordStart_eq (by omega), hbefore]
  · rw [hcount, peekRange_eq (by omega), ← drop_take, hbefore]
    conv_lhs => rw [← hsplit]
    rw [drop_left]
  · have hrange := peekRange_eq (b := l.line) (p := 0) (n := w) (by omega)
    have hfront : l.line.take w = (l.line.take t.pos).take w := by
      rw [take_take, Nat.min_eq_left (by omega)]
    rw [drop_zero, hfront, hbefore] at hrange
    refine hrange.trans (congrArg some ?_)
    conv_lhs => rw [← hsplit]
    rw [take_left]

theorem Cursor.insertAll_nil (t : Cursor UInt8) : t.insertAll [] = t :=
  Cursor.ext (by rw [t.text_insertAll, append_nil]; exact take_append_drop _ _) rfl

/-- What follows from the table is inserted, or nothing. -/
theorem Line.Holds.useMatches (h : l.Holds t) (leafLen : Nat) (ms : List CStr) :
    ∃ l' shown ins addSpace,
    l.useMatches leafLen ms = some (l', shown) ∧ l'.Holds (t.insertAll (withSpace ins addSpace)) ∧
    (tabInsertion leafLen ms = (ins, addSpace) ∨ ins = [] ∧ addSpace = false) := by
  have hlen := h.len
  unfold Line.useMatches
  dsimp only
  generalize tabInsertion leafLen ms = res
  have htotal : (withSpace res.1 res.2).length = res.1.length + if res.2 then 1 else 0 := by
    cases hsp : res.2 <;> simp [withSpace]
  rw [← htotal]
  obtain ⟨l₁, ins, addSpace, hdone, hl1, hres⟩ : ∃ l₁ ins addSpace,
      (if res.1 ≠ [] ∧ l.len + (withSpace res.1 res.2).length ≤ lineMax
        then l.insertText res.1 res.2
        else some l) = some l₁ ∧ l₁.Holds (t.insertAll (withSpace ins addSpace)) ∧
      (res = (ins, addSpace) ∨ ins = [] ∧ addSpace = false) := by
    by_cases hfit : res.1 ≠ [] ∧ l.len + (withSpace res.1 res.2).length ≤ lineMax
    · have hroom : t.text.length + (withSpace res.1 res.2).length ≤ lineMax := by omega
      obtain ⟨l₁, hdone, hl1⟩ := h.toReads.insertText hroom
      exact ⟨l₁, res.1, res.2, by rw [if_pos hfit, hdone], hl1, .inl rfl⟩
    · refine ⟨l, [], false, if_neg hfit, ?_, .inr ⟨rfl, rfl⟩⟩
      rw [show withSpace [] false = [] from rfl, Cursor.insertAll_nil]
      exact h
  obtain ⟨l₂, hdraw, hl2⟩ := hl1.toReads.redraw
  rw [hdone, bind_some]
  split
  · exact ⟨l₂, ms, ins, addSpace, by rw [hdraw]; rfl, hl2, hres⟩
  · exact ⟨l₁, [], ins, addSpace, rfl, hl1, hres⟩

theorem Line.Reads.tabComplete_eq (h : l.Reads t) (fs : Fs) (cwd : CStr) :
    l.tabComplete fs cwd = l.useMatches (typedLeaf t).length (tabTable fs cwd t) := by
  obtain ⟨w, hstart, hword, hhead⟩ := h.words
  rw [Line.tabComplete, hstart, bind_some, hword, bind_some, Int.toNat_natCast, hhead,
    bind_some, ← tabLeaf_eq]
  rfl

end

/-! ## without files -/

/-- A text with the cursor behind it. -/
def cursorAt (s : CStr) : Cursor UInt8 := ⟨s.chars, s.length, le_rfl⟩

/-- The line when this text has been typed. -/
def promptLine (s : CStr) : Line :=
  ⟨s.chars ++ List.replicate (lineMax + 1 - s.length) 0, s.length, s.length, s.chars,
    promptLen + s.length⟩

theorem promptLine_holds {s : CStr} (h : s.length ≤ lineMax) :
    (promptLine s).Holds (cursorAt s) := by
  have hsize : (promptLine s).line.length = lineMax + 1 := by
    simp only [promptLine, length_append, length_replicate]
    unfold CStr.length at h ⊢
    omega
  exact ⟨⟨hsize, prefix_append _ _, rfl, rfl, h⟩, rfl, rfl⟩

end AliOS
