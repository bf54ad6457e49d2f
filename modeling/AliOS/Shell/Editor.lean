import AliOS.Shell.Complete
import AliOS.Shell.Script

/-!
# AliOS.Shell.Editor

The prompt of the shell (`kernel/shell.c`): the loop of `shell_run` over keys, with the line
that is edited and the history of lines.  An access outside of `line` stops the machine
(`none`).

A key does something to the editor that the line follows (`Line.Holds`) and leaves the
history as it is, unless it is Enter: `Prompt.Holds` is what holds after every key, for some
text, and for the list of all lines that were submitted.  The keys that edit do to the text
what their names say.
-/

namespace AliOS

open Lib List Option

/-! ## the history -/

/-- `HIST_MAX`; `HIST_LEN - 1`. -/
def histMax : Nat := 16
def histChars : Nat := 127

/-- The static variables of the shell: the line, the ring of 16 strings, and the line that was
being edited when browsing started.  `histBidx` is -1 when nobody browses. -/
structure Prompt extends Line where
  hist : Nat → CStr
  histHead : Nat
  histCount : Nat
  histBidx : Int
  saved : CStr

/-- What does not belong to the prompt, when a key is read: the file system, the working
directory, and what `dispatch` leaves in the cells of the string it is given, its terminator
included. -/
structure World where
  fs : Fs
  cwd : CStr
  dispatch : CStr → List UInt8
  length_dispatch : ∀ s, (dispatch s).length = s.length + 1

/-- `hist_push`. -/
def Prompt.histPush (e : Prompt) : Option Prompt :=
  if e.len = 0 then some e
  else
    (readUpTo e.line histChars 0).map fun s =>
      { e with
        hist := Function.update e.hist e.histHead (CStr.ofBytes s)
        histHead := (e.histHead + 1) % histMax
        histCount := if e.histCount < histMax then e.histCount + 1 else e.histCount }

/-- `len = 0; while (*src && len < LINE_MAX) line[len++] = *src++; pos = len;` -/
def Prompt.setText (e : Prompt) (src : CStr) : Option Prompt :=
  let text := src.chars.take lineMax
  (pokeAll e.line 0 text).map fun line =>
    { e with line := line, pos := text.length, len := text.length }

/-- The slot of the entry at browse index `bidx`. -/
def Prompt.histSlot (e : Prompt) (bidx : Int) : Int :=
  (e.histHead - e.histCount + bidx + histMax * histMax).tmod histMax

def Prompt.histLoad (e : Prompt) (bidx : Int) : Option Prompt :=
  e.setText (e.hist (e.histSlot bidx).toNat)

/-- A change of the line only. -/
def Prompt.onLine (f : Line → Option Line) (e : Prompt) : Option Prompt :=
  (f e.toLine).map fun l => { e with toLine := l }

def Prompt.histUp (e : Prompt) : Option Prompt :=
  if e.histCount = 0 then some e
  else if e.histBidx = -1 then
    (readUpTo e.line lineMax 0).bind fun s =>
      ({ e with saved := CStr.ofBytes s, histBidx := e.histCount - 1 }.histLoad
        (e.histCount - 1)).bind
        (Prompt.onLine Line.redraw)
  else if 0 < e.histBidx then
    ({ e with histBidx := e.histBidx - 1 }.histLoad (e.histBidx - 1)).bind
      (Prompt.onLine Line.redraw)
  else some e

def Prompt.histDown (e : Prompt) : Option Prompt :=
  if e.histBidx = -1 then some e
  else if e.histBidx < e.histCount - 1 then
    ({ e with histBidx := e.histBidx + 1 }.histLoad (e.histBidx + 1)).bind
      (Prompt.onLine Line.redraw)
  else ({ e with histBidx := -1 }.setText e.saved).bind (Prompt.onLine Line.redraw)

/-! ## the keys -/

/-- `KEY_UP`, `KEY_DOWN`, `KEY_LEFT`, `KEY_RIGHT`, `KEY_HOME`, `KEY_END`, '\b' and `KEY_DEL`. -/
def keyUp : UInt8 := 1
def keyDown : UInt8 := 2
def keyLeft : UInt8 := 3
def keyRight : UInt8 := 4
def keyHome : UInt8 := 5
def keyEnd : UInt8 := 6
def keyBackspace : UInt8 := 8
def keyDel : UInt8 := 0x7F

def isPrintable (c : UInt8) : Bool := decide (space ≤ c) && decide (c < 0x7F)

/-- Enter: the line is shown, remembered and executed. -/
def Prompt.enter (w : World) (e : Prompt) : Option Prompt :=
  (poke e.line e.len 0).bind fun line =>
  -- vga_puts(line)
  (readStr line).bind fun _ =>
  ({ e with line := line, histBidx := -1 }.histPush).bind fun e =>
  -- shell_exec
  (poke e.line e.len 0).bind fun line =>
  (readStr line).bind fun s =>
  (pokeAll line 0 (w.dispatch (CStr.ofBytes s))).bind fun line =>
    Prompt.onLine Line.redraw { e with line := line, pos := 0, len := 0 }

/-- One turn of the loop in `shell_run`. -/
def Prompt.key (e : Prompt) (w : World) (c : UInt8) : Option Prompt :=
  if c = 0 then some e
  else if c = keyLeft then e.onLine Line.left
  else if c = keyRight then e.onLine Line.right
  else if c = keyHome then e.onLine Line.home
  else if c = keyEnd then e.onLine Line.toEnd
  else if c = keyUp then e.histUp
  else if c = keyDown then e.histDown
  else if c = keyBackspace then e.onLine Line.backspace
  else if c = keyDel then e.onLine Line.delete
  else if c = newline then e.enter w
  else if c = tab then e.onLine fun l => (l.tabComplete w.fs w.cwd).map (·.1)
  else if isPrintable c then e.onLine (·.insert c)
  else some e

/-- The shell when it starts to read keys. -/
def Prompt.boot : Prompt where
  line := List.replicate (lineMax + 1) 0
  pos := 0
  len := 0
  shown := []
  column := promptLen
  hist := fun _ => emptyStr
  histHead := 0
  histCount := 0
  histBidx := -1
  saved := emptyStr

/-- One key after the other. -/
def Prompt.keys (e : Prompt) : List (World × UInt8) → Option Prompt
  | [] => some e
  | (w, c) :: ks => (e.key w c).bind fun e => e.keys ks

/-! ## what is remembered -/

/-- The ring holds the last lines of those that were submitted. -/
structure Prompt.Remembers (e : Prompt) (log : List CStr) : Prop where
  head : e.histHead < histMax
  count : e.histCount ≤ histMax
  entries : window e.hist histMax (e.histHead + histMax * histMax - e.histCount) e.histCount =
    log.rtake histMax
  short : ∀ s ∈ log, s.length ≤ lineMax

section

variable {e : Prompt} {log : List CStr} {s : CStr}

theorem Prompt.Remembers.count_eq (h : e.Remembers log) : e.histCount = min log.length histMax := by
  have hlen := congrArg List.length h.entries
  rw [length_window, List.rtake, length_drop] at hlen
  omega

/-- The slot of an entry is inside the ring, and there the entry is. -/
theorem Prompt.Remembers.entry (h : e.Remembers log) {b : Nat} (hb : b < e.histCount) :
    0 ≤ e.histSlot b ∧ e.histSlot b < histMax ∧
      (log.rtake histMax)[b]? = some (e.hist (e.histSlot b).toNat) := by
  have hcount := h.count
  have hslot : e.histSlot b =
      ((e.histHead + histMax * histMax - e.histCount + b) % histMax : Nat) := by
    unfold Prompt.histSlot histMax at *
    rw [Int.ofNat_tmod]
    congr 1
    omega
  have hlt : (e.histHead + histMax * histMax - e.histCount + b) % histMax < histMax :=
    Nat.mod_lt _ (by decide)
  refine ⟨by omega, by omega, ?_⟩
  rw [← h.entries, hslot, Int.toNat_natCast, window, List.getElem?_map, List.getElem?_range hb,
    map_some]

/-- One more line. -/
theorem Prompt.Remembers.push (h : e.Remembers log) (hs : s.length ≤ lineMax) {e' : Prompt}
    (hhist : e'.hist = Function.update e.hist e.histHead s)
    (hhead : e'.histHead = (e.histHead + 1) % histMax)
    (hcount : e'.histCount = if e.histCount < histMax then e.histCount + 1 else e.histCount) :
    e'.Remembers (log ++ [s]) := by
  have hlt := h.head
  have hlog := h.count_eq
  have hentries := h.entries
  have hlast : (log ++ [s]).rtake histMax = log.rtake (histMax - 1) ++ [s] :=
    rtake_concat_succ log 15 s
  refine ⟨hhead ▸ Nat.mod_lt _ (by decide), by split at hcount <;> omega, ?_, ?_⟩
  · rw [hlast, hhist, hhead, hcount]
    set start := e.histHead + histMax * histMax - e.histCount with hstart
    have hcell : (start + e.histCount) % histMax = e.histHead := by
      unfold histMax at *
      omega
    by_cases hroom : e.histCount < histMax
    · -- nothing is lost
      have hall : log.rtake (histMax - 1) = log.rtake histMax := by
        rw [List.rtake, List.rtake, show log.length - (histMax - 1) = 0 by omega,
          show log.length - histMax = 0 by omega]
      have hmod : ((e.histHead + 1) % histMax + histMax * histMax - (e.histCount + 1)) % histMax =
          start % histMax := by
        unfold histMax at *
        omega
      rw [if_pos hroom, window_congr _ hmod, hall, ← hentries]
      conv_lhs => rw [← hcell]
      exact window_update hroom s
    · -- the oldest line is overwritten
      have hfull : e.histCount = histMax := by omega
      have htail : (log.rtake histMax).tail = log.rtake (histMax - 1) := by
        rw [List.rtake, List.rtake, tail_drop,
          show log.length - histMax + 1 = log.length - (histMax - 1) by
          unfold histMax at *; omega]
      have hmod : ((e.histHead + 1) % histMax + histMax * histMax - histMax) % histMax =
          (start + 1) % histMax := by
        unfold histMax at *
        omega
      rw [if_neg hroom, hfull, window_congr _ hmod, ← htail, ← hentries, hfull]
      conv_lhs => rw [← hcell, hfull]
      exact window_overwrite (by decide) s
  · intro s' hs'
    rcases mem_append.mp hs' with hs' | hs'
    · exact h.short s' hs'
    · rw [mem_singleton.mp hs']
      exact hs

end

/-! ## what holds after every key -/

/-- The line follows the editor `t`, and the ring the list of submitted lines. -/
structure Prompt.Holds (e : Prompt) (t : Cursor UInt8) (log : List CStr) : Prop where
  line : e.toLine.Holds t
  noNul : ∀ c ∈ t.text, c ≠ 0
  ring : e.Remembers log
  browsing : -1 ≤ e.histBidx ∧ e.histBidx < e.histCount
  saved : e.saved.length ≤ lineMax

/-- What a key adds to the submitted lines. -/
def submitted (c : UInt8) (t : Cursor UInt8) : List CStr :=
  if c = newline ∧ t.text ≠ [] then [CStr.ofBytes t.text] else []

section

variable {e : Prompt} {t : Cursor UInt8} {log : List CStr} {s : CStr}

theorem Prompt.boot_holds : Prompt.boot.Holds (cursorAt emptyStr) [] where
  line := promptLine_holds (s := emptyStr) (by decide)
  noNul := by simp [cursorAt, emptyStr]
  ring := ⟨by decide, by decide, rfl, by simp⟩
  browsing := by decide
  saved := by decide

/-- A key that changes only the line. -/
theorem Prompt.Holds.onLine {t' : Cursor UInt8} {f : Line → Option Line} (h : e.Holds t log)
    (hf : ∃ l, f e.toLine = some l ∧ l.Holds t') (hnul : ∀ c ∈ t'.text, c ≠ 0) :
    ∃ e', e.onLine f = some e' ∧ e'.Holds t' log := by
  obtain ⟨l, hl, hholds⟩ := hf
  rw [Prompt.onLine, hl, map_some]
  exact ⟨_, rfl, hholds, hnul, ⟨h.ring.head, h.ring.count, h.ring.entries, h.ring.short⟩,
    h.browsing, h.saved⟩

/-- A string is copied to the line. -/
theorem Prompt.setText_reads (hsize : e.line.length = lineMax + 1) (hs : s.length ≤ lineMax) :
    ∃ l, e.setText s = some { e with toLine := l } ∧ l.Reads (cursorAt s) := by
  have htake : s.chars.take lineMax = s.chars := List.take_of_length_le hs
  have hs' : s.chars.length ≤ lineMax := hs
  have hpoke : pokeAll e.line (0 : Nat) s.chars = some (overwrite e.line 0 s.chars) :=
    pokeAll_eq (by omega)
  refine ⟨⟨overwrite e.line 0 s.chars, s.chars.length, s.chars.length, e.shown, e.column⟩, ?_, ?_⟩
  · unfold Prompt.setText
    dsimp only
    rw [htake, show (0 : Int) = ((0 : Nat) : Int) from rfl, hpoke, map_some]
  · refine ⟨(length_overwrite (by omega)).trans hsize, ?_, rfl, rfl, hs⟩
    exact ⟨e.line.drop (0 + s.chars.length), by simp [overwrite, cursorAt]⟩

theorem Prompt.setText_redraw (hsize : e.line.length = lineMax + 1) (hs : s.length ≤ lineMax) :
    ∃ l, (e.setText s).bind (Prompt.onLine Line.redraw) = some { e with toLine := l } ∧
      l.Holds (cursorAt s) := by
  obtain ⟨l, hset, hreads⟩ := Prompt.setText_reads hsize hs
  obtain ⟨l', hdraw, hl'⟩ := hreads.redraw
  refine ⟨l', ?_, hl'⟩
  rw [hset, bind_some, Prompt.onLine, hdraw, map_some]

/-- The line of the history at browse index `b`. -/
def historyEntry (log : List CStr) (b : Int) : CStr := ((log.rtake histMax)[b.toNat]?).getD emptyStr

theorem Prompt.Remembers.historyEntry_eq (h : e.Remembers log) {b : Int} (hb : 0 ≤ b)
    (hlt : b < e.histCount) :
    e.hist (e.histSlot b).toNat = historyEntry log b ∧
      (log.rtake histMax)[b.toNat]? = some (historyEntry log b) := by
  obtain ⟨n, rfl⟩ := Int.eq_ofNat_of_zero_le hb
  obtain ⟨-, -, hentry⟩ := h.entry (b := n) (by omega)
  simp [historyEntry, hentry]

theorem Prompt.Remembers.length_historyEntry (h : e.Remembers log) (b : Int) :
    (historyEntry log b).length ≤ lineMax := by
  unfold historyEntry
  cases hentry : (log.rtake histMax)[b.toNat]? with
  | none => simp [emptyStr, CStr.length]
  | some s => exact h.short s (mem_of_mem_drop (mem_of_getElem? hentry))

/-- An entry is copied to the line. -/
theorem Prompt.Remembers.load (h : e.Remembers log) (hsize : e.line.length = lineMax + 1)
    {b : Int} (hb : 0 ≤ b)
    (hlt : b < e.histCount) : ∃ l, (e.histLoad b).bind (Prompt.onLine Line.redraw) =
      some { e with toLine := l } ∧
      l.Holds (cursorAt (historyEntry log b)) := by
  rw [Prompt.histLoad, (h.historyEntry_eq hb hlt).1]
  exact Prompt.setText_redraw hsize (h.length_historyEntry b)

/-! ## Up and Down -/

/-- What is saved of the line when browsing starts: `line` is taken for a string. -/
def Prompt.lineSaved (e : Prompt) : CStr := CStr.ofBytes ((e.line.takeWhile (· != 0)).take lineMax)

/-- Everything that `hist_up` can do. -/
theorem Prompt.Holds.histUp_cases (h : e.Holds t log) :
    (e.histCount = 0 ∨ e.histBidx = 0) ∧ e.histUp = some e ∨
    ∃ (b : Int) (sv : CStr) (l : Line), 0 ≤ b ∧ b < e.histCount ∧
      l.Holds (cursorAt (historyEntry log b)) ∧
      e.histUp = some { e with toLine := l, saved := sv, histBidx := b } ∧
      (e.histBidx = -1 ∧ b = e.histCount - 1 ∧ sv = e.lineSaved ∨
        0 < e.histBidx ∧ b = e.histBidx - 1 ∧ sv = e.saved) := by
  obtain ⟨hlo, hhi⟩ := h.browsing
  have hsize := h.line.size
  unfold Prompt.histUp
  by_cases hcount : e.histCount = 0
  · exact .inl ⟨.inl hcount, if_pos hcount⟩
  rw [if_neg hcount]
  by_cases hfirst : e.histBidx = -1
  · have hread : readUpTo e.line lineMax (0 : Nat) =
        some ((e.line.takeWhile (· != 0)).take lineMax) := by
      rw [readUpTo_eq (.inl (by omega)), drop_zero]
    obtain ⟨l, hload, hl⟩ := Prompt.Remembers.load (b := (e.histCount - 1 : Int))
      (e := { e with saved := e.lineSaved, histBidx := e.histCount - 1 })
      ⟨h.ring.head, h.ring.count, h.ring.entries, h.ring.short⟩ hsize (by omega)
        (by dsimp only; omega)
    refine .inr ⟨e.histCount - 1, e.lineSaved, l, by omega, by omega, hl, ?_,
      .inl ⟨hfirst, rfl, rfl⟩⟩
    rw [if_pos hfirst, show (0 : Int) = ((0 : Nat) : Int) from rfl, hread, bind_some]
    exact hload
  rw [if_neg hfirst]
  by_cases hnext : 0 < e.histBidx
  · obtain ⟨l, hload, hl⟩ := Prompt.Remembers.load (b := e.histBidx - 1)
      (e := { e with histBidx := e.histBidx - 1 })
      ⟨h.ring.head, h.ring.count, h.ring.entries, h.ring.short⟩ hsize (by omega)
        (by dsimp only; omega)
    refine .inr ⟨e.histBidx - 1, e.saved, l, by omega, by omega, hl, ?_, .inr ⟨hnext, rfl, rfl⟩⟩
    rw [if_pos hnext]
    exact hload
  · exact .inl ⟨.inr (by omega), if_neg hnext⟩

/-- Everything that `hist_down` can do. -/
theorem Prompt.Holds.histDown_cases (h : e.Holds t log) :
    e.histBidx = -1 ∧ e.histDown = some e ∨
    ∃ (b : Int) (s : CStr) (l : Line), l.Holds (cursorAt s) ∧
      e.histDown = some { e with toLine := l, histBidx := b } ∧
      (0 ≤ e.histBidx ∧ b = e.histBidx + 1 ∧ b < e.histCount ∧ s = historyEntry log b ∨
        e.histBidx = e.histCount - 1 ∧ 0 ≤ e.histBidx ∧ b = -1 ∧ s = e.saved) := by
  obtain ⟨hlo, hhi⟩ := h.browsing
  have hsize := h.line.size
  unfold Prompt.histDown
  by_cases hfirst : e.histBidx = -1
  · exact .inl ⟨hfirst, if_pos hfirst⟩
  rw [if_neg hfirst]
  by_cases hnext : e.histBidx < e.histCount - 1
  · obtain ⟨l, hload, hl⟩ := Prompt.Remembers.load (b := e.histBidx + 1)
      (e := { e with histBidx := e.histBidx + 1 })
      ⟨h.ring.head, h.ring.count, h.ring.entries, h.ring.short⟩ hsize (by omega)
        (by dsimp only; omega)
    refine .inr ⟨e.histBidx + 1, _, l, hl, ?_, .inl ⟨by omega, rfl, by omega, rfl⟩⟩
    rw [if_pos hnext]
    exact hload
  · obtain ⟨l, hset, hl⟩ := Prompt.setText_redraw (e := { e with histBidx := -1 }) hsize h.saved
    refine .inr ⟨-1, _, l, hl, ?_, .inr ⟨by omega, by omega, rfl, rfl⟩⟩
    rw [if_neg hnext]
    exact hset

/-- A line of the history, or the saved line. -/
theorem Prompt.Holds.recall (h : e.Holds t log) {l : Line} (hl : l.Holds (cursorAt s)) {sv : CStr}
    (hsv : sv.length ≤ lineMax) {b : Int} (hlo : -1 ≤ b) (hhi : b < e.histCount) :
    ({ e with toLine := l, saved := sv, histBidx := b } : Prompt).Holds (cursorAt s) log :=
  ⟨hl, s.noNul, ⟨h.ring.head, h.ring.count, h.ring.entries, h.ring.short⟩, ⟨hlo, hhi⟩, hsv⟩

theorem Prompt.length_lineSaved (e : Prompt) : e.lineSaved.length ≤ lineMax := by
  have h := (takeWhile_sublist (l := (e.line.takeWhile (· != 0)).take lineMax) (· != 0)).length_le
  exact h.trans (length_take_le _ _)

theorem Prompt.Holds.histUp (h : e.Holds t log) :
    ∃ e' t', e.histUp = some e' ∧ e'.Holds t' log := by
  obtain ⟨-, hstay⟩ | ⟨b, sv, l, hb, hlt, hl, hup, hcase⟩ := h.histUp_cases
  · exact ⟨e, t, hstay, h⟩
  · have hsv : sv.length ≤ lineMax := by
      rcases hcase with ⟨-, -, rfl⟩ | ⟨-, -, rfl⟩
      · exact e.length_lineSaved
      · exact h.saved
    exact ⟨_, _, hup, h.recall hl hsv (by omega) hlt⟩

theorem Prompt.Holds.histDown (h : e.Holds t log) :
    ∃ e' t', e.histDown = some e' ∧ e'.Holds t' log := by
  obtain ⟨-, hstay⟩ | ⟨b, s, l, hl, hdown, hcase⟩ := h.histDown_cases
  · exact ⟨e, t, hstay, h⟩
  · exact ⟨_, _, hdown, h.recall hl h.saved (by omega) (by omega)⟩

/-! ## Enter -/

/-- `line[len] = 0` makes the text a string. -/
theorem Line.Reads.terminate {l : Line} (h : l.Reads t) :
    ∃ rest, poke l.line l.len 0 = some (t.text ++ 0 :: rest) ∧
    (t.text ++ 0 :: rest).length = lineMax + 1 := by
  have hsize := h.size
  have hroom := h.room
  have hfront : l.line.take t.text.length = t.text := (prefix_iff_eq_take.mp h.text).symm
  have hpoke : poke l.line t.text.length 0 = some (overwrite l.line t.text.length [0]) :=
    poke_natCast (by omega)
  have hlen : (overwrite l.line t.text.length [0]).length = lineMax + 1 := by
    rw [length_overwrite (by simp; omega), hsize]
  have hline : overwrite l.line t.text.length [0] = t.text ++
      0 :: l.line.drop (t.text.length + 1) := by
    rw [overwrite, hfront, append_assoc]
    rfl
  rw [hline] at hpoke hlen
  exact ⟨_, by rw [h.len, hpoke], hlen⟩

/-- The string at the start of an array. -/
theorem takeWhile_terminated {text rest : List UInt8} (h : ∀ c ∈ text, c ≠ 0) :
    (text ++ 0 :: rest).takeWhile (· != 0) = text := by
  rw [takeWhile_append_of_pos fun c hc => by simpa using h c hc]
  simp

/-- The line goes to the history. -/
theorem Prompt.histPush_eq (hline : ∃ rest, e.line = t.text ++ 0 :: rest)
    (hlen : e.len = t.text.length)
    (hnul : ∀ c ∈ t.text, c ≠ 0) (hroom : t.text.length ≤ lineMax) (h : e.Remembers log) :
    ∃ e', e.histPush = some e' ∧ e'.toLine = e.toLine ∧ e'.histBidx = e.histBidx ∧
      e'.saved = e.saved ∧
      e.histCount ≤ e'.histCount ∧ e'.Remembers (log ++ submitted newline t) := by
  obtain ⟨rest, hline⟩ := hline
  unfold Prompt.histPush
  by_cases htext : t.text = []
  · have hnone : submitted newline t = [] := if_neg (by simp [htext])
    rw [if_pos (by simp [hlen, htext]), hnone, append_nil]
    exact ⟨e, rfl, rfl, rfl, rfl, le_rfl, h⟩
  · have hone : submitted newline t = [CStr.ofBytes t.text] := if_pos ⟨rfl, htext⟩
    have hread : readUpTo e.line histChars (0 : Nat) = some t.text := by
      rw [readUpTo_eq (.inr (by simp [hline])), drop_zero, hline, takeWhile_terminated hnul,
        List.take_of_length_le (hroom.trans (by decide))]
    have hpos := length_pos_of_ne_nil htext
    have hshort : (CStr.ofBytes t.text).length ≤ lineMax := by
      rw [CStr.length, CStr.chars_ofBytes hnul]
      exact hroom
    rw [if_neg (by omega), hone, show (0 : Int) = ((0 : Nat) : Int) from rfl, hread, map_some]
    refine ⟨_, rfl, rfl, rfl, rfl, ?_, h.push hshort rfl rfl rfl⟩
    dsimp only
    split <;> omega

theorem Prompt.Holds.enter (h : e.Holds t log) (w : World) :
    ∃ e', e.enter w = some e' ∧ e'.Holds (cursorAt emptyStr) (log ++ submitted newline t) := by
  have hroom := h.line.room
  obtain ⟨rest, hpoke, hsize⟩ := h.line.toReads.terminate
  have hread : readStr (t.text ++ 0 :: rest) = some t.text := by
    rw [readStr_eq (by simp), takeWhile_terminated h.noNul]
  obtain ⟨e1, hpush, hline1, hbidx1, hsaved1, -, hring1⟩ :=
    Prompt.histPush_eq (e := { e with line := t.text ++ 0 :: rest, histBidx := -1 })
      ⟨rest, rfl⟩ h.line.len h.noNul
      hroom ⟨h.ring.head, h.ring.count, h.ring.entries, h.ring.short⟩
  have hreads : e1.toLine.Reads t := by
    rw [hline1]
    exact ⟨hsize, prefix_append _ _, h.line.len, h.line.pos, hroom⟩
  obtain ⟨rest', hpoke', hsize'⟩ := hreads.terminate
  have hread' : readStr (t.text ++ 0 :: rest') = some t.text := by
    rw [readStr_eq (by simp), takeWhile_terminated h.noNul]
  have hcells : (w.dispatch (CStr.ofBytes t.text)).length ≤ (t.text ++ 0 :: rest').length := by
    rw [w.length_dispatch, CStr.length, CStr.chars_ofBytes h.noNul, hsize']
    omega
  have hexec : pokeAll (t.text ++ 0 :: rest') (0 : Nat) (w.dispatch (CStr.ofBytes t.text)) =
      some (overwrite (t.text ++ 0 :: rest') 0 (w.dispatch (CStr.ofBytes t.text))) :=
        pokeAll_eq (by omega)
  have hlast : (⟨overwrite (t.text ++ 0 :: rest') 0 (w.dispatch (CStr.ofBytes t.text)),
      0, 0, e1.shown,
      e1.column⟩ : Line).Reads (cursorAt emptyStr) :=
    ⟨(length_overwrite (by omega)).trans hsize', nil_prefix, rfl, rfl, Nat.zero_le _⟩
  obtain ⟨l, hdraw, hl⟩ := hlast.redraw
  refine ⟨{ e1 with toLine := l }, ?_, hl, by simp [cursorAt, emptyStr],
    ⟨hring1.head, hring1.count, hring1.entries, hring1.short⟩, ?_, ?_⟩
  · unfold Prompt.enter
    rw [hpoke, bind_some, hread, bind_some, hpush, bind_some, hpoke', bind_some, hread',
      bind_some, show (0 : Int) = ((0 : Nat) : Int) from rfl, hexec, bind_some, Prompt.onLine]
    exact congrArg (Option.map _) hdraw
  · dsimp only at hbidx1 ⊢
    omega
  · rw [hsaved1]
    exact h.saved

/-! ## one key -/

/-- The keys that edit. -/
def isEditKey (c : UInt8) : Bool :=
  c == keyLeft || c == keyRight || c == keyHome || c == keyEnd || c == keyBackspace ||
    c == keyDel || isPrintable c

/-- What they do to an editor with room for 77 characters. -/
def editKey (t : Cursor UInt8) (c : UInt8) : Cursor UInt8 :=
  if c = keyLeft then t.left
  else if c = keyRight then t.right
  else if c = keyHome then t.home
  else if c = keyEnd then t.toEnd
  else if c = keyBackspace then t.backspace
  else if c = keyDel then t.delete
  else t.insert lineMax c

theorem noNul_erase {i : Nat} (h : ∀ c ∈ t.text, c ≠ 0) : ∀ c ∈ t.text.eraseIdx i, c ≠ 0 :=
  fun c hc => h c (mem_of_mem_eraseIdx hc)

theorem noNul_insertAll {cs : List UInt8} (h : ∀ c ∈ t.text, c ≠ 0) (hcs : ∀ c ∈ cs, c ≠ 0) :
    ∀ c ∈ (t.insertAll cs).text, c ≠ 0 := by
  intro c hc
  rw [t.text_insertAll, mem_append, mem_append] at hc
  rcases hc with (hc | hc) | hc
  · exact h c (mem_of_mem_take hc)
  · exact hcs c hc
  · exact h c (mem_of_mem_drop hc)

/-- A key that edits does to the line what it does to the editor. -/
theorem Prompt.Holds.edit (h : e.Holds t log) (w : World) {c : UInt8} (hc : isEditKey c) :
    ∃ e', e.key w c = some e' ∧ e'.Holds (editKey t c) log := by
  simp only [isEditKey, Bool.or_eq_true, beq_iff_eq] at hc
  rcases hc with (((((rfl | rfl) | rfl) | rfl) | rfl) | rfl) | hc
  · exact h.onLine h.line.left h.noNul
  · exact h.onLine h.line.right h.noNul
  · exact h.onLine h.line.home h.noNul
  · exact h.onLine h.line.toEnd h.noNul
  · have hback : ∀ c ∈ t.backspace.text, c ≠ 0 := by
      unfold Cursor.backspace
      split
      · exact h.noNul
      · exact noNul_erase h.noNul
    exact h.onLine h.line.backspace hback
  · exact h.onLine h.line.delete (noNul_erase h.noNul)
  · have hne : ∀ k, isPrintable k = false → c ≠ k := fun k hk heq => by simp [← heq, hc] at hk
    have hkey : e.key w c = e.onLine (·.insert c) := by
      simp [Prompt.key, hc, hne 0 rfl, hne keyLeft rfl, hne keyRight rfl, hne keyHome rfl,
        hne keyEnd rfl,
        hne keyUp rfl, hne keyDown rfl, hne keyBackspace rfl, hne keyDel rfl, hne newline rfl,
        hne tab rfl]
    have hedit : editKey t c = t.insert lineMax c := by
      simp [editKey, hne keyLeft rfl, hne keyRight rfl, hne keyHome rfl, hne keyEnd rfl,
        hne keyBackspace rfl, hne keyDel rfl]
    rw [hkey, hedit]
    refine h.onLine (h.line.insert c) ?_
    unfold Cursor.insert
    split
    · exact noNul_insertAll h.noNul (by simpa using hne 0 rfl)
    · exact h.noNul

theorem noNul_tabInsertion (leafLen : Nat) (ms : List CStr) :
    ∀ c ∈ (tabInsertion leafLen ms).1, c ≠ 0 := by
  cases ms with
  | nil => simp [tabInsertion]
  | cons first rest => exact fun c hc => first.noNul c (mem_of_mem_take (mem_of_mem_drop hc))

/-- The Tab key. -/
theorem Prompt.Holds.tabKey (h : e.Holds t log) (w : World) :
    ∃ e' t', e.onLine (fun l => (l.tabComplete w.fs w.cwd).map (·.1)) = some e' ∧
      e'.Holds t' log := by
  obtain ⟨l, shown, ins, addSpace, htab, hl, hres⟩ :=
    h.line.useMatches (typedLeaf t).length (tabTable w.fs w.cwd t)
  rw [← h.line.toReads.tabComplete_eq] at htab
  have hins : ∀ c ∈ ins, c ≠ 0 := by
    rcases hres with hres | ⟨rfl, -⟩
    · have hnul := noNul_tabInsertion (typedLeaf t).length (tabTable w.fs w.cwd t)
      rwa [hres] at hnul
    · simp
  have hcs : ∀ c ∈ withSpace ins addSpace, c ≠ 0 := by
    intro c hc
    rcases mem_append.mp hc with hc | hc
    · exact hins c hc
    · cases addSpace <;> simp [space] at hc
      rw [hc]
      decide
  obtain ⟨e', hkey, he'⟩ :=
    h.onLine (f := fun l => (l.tabComplete w.fs w.cwd).map (·.1)) ⟨l, by rw [htab]; rfl, hl⟩
    (noNul_insertAll h.noNul hcs)
  exact ⟨e', _, hkey, he'⟩

/-- **Every key keeps what holds.** -/
theorem Prompt.Holds.key (h : e.Holds t log) (w : World) (c : UInt8) :
    ∃ e' t', e.key w c = some e' ∧ e'.Holds t' (log ++ submitted c t) := by
  by_cases hnl : c = newline
  · obtain ⟨e', henter, he'⟩ := h.enter w
    rw [hnl]
    exact ⟨e', _, henter, he'⟩
  have hnone : submitted c t = [] := if_neg fun hc => hnl hc.1
  rw [hnone, append_nil]
  by_cases hedit : isEditKey c = true
  · obtain ⟨e', hkey, he'⟩ := h.edit w hedit
    exact ⟨e', _, hkey, he'⟩
  simp only [isEditKey, Bool.or_eq_true, beq_iff_eq, not_or] at hedit
  obtain ⟨⟨⟨⟨⟨⟨hleft, hright⟩, hhome⟩, hend⟩, hback⟩, hdel⟩, hprint⟩ := hedit
  unfold Prompt.key
  split_ifs
  · exact ⟨e, t, rfl, h⟩
  · exact h.histUp
  · exact h.histDown
  · exact h.tabKey w
  · exact ⟨e, t, rfl, h⟩

/-! ## many keys -/

/-- The line that a key submits. -/
def Prompt.submits (e : Prompt) (c : UInt8) : List CStr :=
  if c = newline ∧ e.len ≠ 0 then [CStr.ofBytes (e.line.take e.len.toNat)] else []

/-- The lines that are submitted while keys are pressed. -/
def Prompt.submissions (e : Prompt) : List (World × UInt8) → List CStr
  | [] => []
  | (w, c) :: ks => e.submits c ++ ((e.key w c).map fun e => e.submissions ks).getD []

theorem Line.Reads.take_len {l : Line} (h : l.Reads t) : l.line.take l.len.toNat = t.text := by
  rw [h.len, Int.toNat_natCast]
  exact (prefix_iff_eq_take.mp h.text).symm

theorem Prompt.Holds.submits_eq (h : e.Holds t log) (c : UInt8) : e.submits c = submitted c t := by
  unfold Prompt.submits submitted
  rw [h.line.toReads.take_len]
  refine if_congr (and_congr_right fun _ => not_congr ?_) rfl rfl
  rw [h.line.len, ← length_eq_zero_iff]
  omega

/-- What holds after a run of keys. -/
theorem Prompt.Holds.keys (h : e.Holds t log) (ks : List (World × UInt8)) :
    ∃ e' t', e.keys ks = some e' ∧ e'.Holds t' (log ++ e.submissions ks) := by
  induction ks generalizing e t log with
  | nil => exact ⟨e, t, rfl, by simpa [Prompt.submissions] using h⟩
  | cons k ks ih =>
    obtain ⟨e1, t1, hkey, he1⟩ := h.key k.1 k.2
    obtain ⟨e', t', hkeys, he'⟩ := ih he1
    refine ⟨e', t', ?_, ?_⟩
    · rw [Prompt.keys, hkey]
      exact hkeys
    · rw [Prompt.submissions, h.submits_eq, hkey, map_some, getD_some, ← append_assoc]
      exact he'

/-- A run of keys that edit does to the line what it does to the editor. -/
theorem Prompt.Holds.edits (h : e.Holds t log) {ks : List (World × UInt8)}
    (hks : ∀ k ∈ ks, isEditKey k.2) :
    ∃ e', e.keys ks = some e' ∧ e'.Holds ((ks.map (·.2)).foldl editKey t) log := by
  induction ks generalizing e t with
  | nil => exact ⟨e, rfl, h⟩
  | cons k ks ih =>
    obtain ⟨hk, hks⟩ := forall_mem_cons.mp hks
    obtain ⟨e1, hkey, he1⟩ := h.edit k.1 hk
    obtain ⟨e', hkeys, he'⟩ := ih he1 hks
    refine ⟨e', ?_, he'⟩
    rw [Prompt.keys, hkey]
    exact hkeys

end

/-- **The line editor.**  Whatever keys are pressed, every access to `line` is inside of it,
and `0 <= pos <= len <= 77`.  From there on, for keys that edit, text and cursor are those of
the editor. -/
theorem lineEditor_refines (ks : List (World × UInt8)) : ∃ e, Prompt.boot.keys ks = some e ∧
    0 ≤ e.pos ∧ e.pos ≤ e.len ∧ e.len ≤ lineMax ∧
    ∀ t : Cursor UInt8, t.text = e.line.take e.len.toNat → t.pos = e.pos →
      ∀ ks', (∀ k ∈ ks', isEditKey k.2 = true) → ∃ e', e.keys ks' = some e' ∧
        e'.line.take e'.len.toNat = ((ks'.map (·.2)).foldl editKey t).text ∧
        e'.len = ((ks'.map (·.2)).foldl editKey t).text.length ∧
          e'.pos = ((ks'.map (·.2)).foldl editKey t).pos := by
  obtain ⟨e, t, hkeys, he⟩ := Prompt.boot_holds.keys ks
  have hle := t.le
  have hroom := he.line.room
  have hpos := he.line.pos
  have hlen := he.line.len
  refine ⟨e, hkeys, by omega, by omega, by omega, fun t' htext hpos' ks' hks' => ?_⟩
  have hsame : t' = t := Cursor.ext (htext.trans he.line.toReads.take_len) (by omega)
  obtain ⟨e', hedits, he'⟩ := he.edits hks'
  rw [hsame]
  exact ⟨e', hedits, he'.line.toReads.take_len, he'.line.len, he'.line.pos⟩

end AliOS
