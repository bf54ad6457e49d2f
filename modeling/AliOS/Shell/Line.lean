import AliOS.Lib.EditBuffer

/-!
# AliOS.Shell.Line

The line that is edited at the prompt (`kernel/shell.c`): the array `line` of 78 bytes, the
number `len` of characters in it, the place `pos` of the cursor, and what `redraw` puts on
the screen.  An access outside of the array is `none`.

`Line.Holds l t` says that the array follows the editor `t` of `Lib.EditBuffer`.  Every key
that edits the line does to the array what it does to the editor, and stays within the
array.
-/

namespace AliOS

open Lib List Option

/-- `LINE_MAX`. -/
def lineMax : Nat := 77

/-- `PROMPT_LEN`. -/
def promptLen : Nat := 2

/-- `line`, `pos` and `len`; the characters that the input row shows behind the prompt, and the
column of the cursor in it. -/
structure Line where
  line : List UInt8
  pos : Int
  len : Int
  shown : List UInt8
  column : Int
deriving DecidableEq

/-! ## the keys that edit -/

def Line.redraw (l : Line) : Option Line :=
  (peekRange l.line 0 l.len.toNat).map fun row =>
    { l with shown := row, column := promptLen + l.pos }

def Line.left (l : Line) : Option Line :=
  if 0 < l.pos then { l with pos := l.pos - 1 }.redraw else some l

def Line.right (l : Line) : Option Line :=
  if l.pos < l.len then { l with pos := l.pos + 1 }.redraw else some l

def Line.home (l : Line) : Option Line := { l with pos := 0 }.redraw

def Line.toEnd (l : Line) : Option Line := { l with pos := l.len }.redraw

def Line.backspace (l : Line) : Option Line :=
  if 0 < l.pos then
    -- for (int i = pos - 1; i < len - 1; i++) line[i] = line[i + 1];
    (countUp (copyCell 1 0) (l.len - 1 - (l.pos - 1)).toNat (l.pos - 1) l.line).bind fun line =>
      { l with line := line, pos := l.pos - 1, len := l.len - 1 }.redraw
  else some l

def Line.delete (l : Line) : Option Line :=
  if l.pos < l.len then
    -- for (int i = pos; i < len - 1; i++) line[i] = line[i + 1];
    (countUp (copyCell 1 0) (l.len - 1 - l.pos).toNat l.pos l.line).bind fun line =>
      { l with line := line, len := l.len - 1 }.redraw
  else some l

/-- A printable character. -/
def Line.insert (l : Line) (c : UInt8) : Option Line :=
  if l.len < lineMax then
    -- for (int i = len; i > pos; i--) line[i] = line[i - 1];
    (countDown (copyCell (-1) 0) (l.len - l.pos).toNat l.len l.line).bind fun line =>
      (poke line l.pos c).bind fun line =>
        { l with line := line, pos := l.pos + 1, len := l.len + 1 }.redraw
  else some l

/-! ## the line and the editor -/

/-- The array holds the text. -/
structure Line.Reads (l : Line) (t : Cursor UInt8) : Prop where
  size : l.line.length = lineMax + 1
  text : t.text <+: l.line
  len : l.len = t.text.length
  pos : l.pos = t.pos
  room : t.text.length ≤ lineMax

/-- The array holds the text, and the screen shows it. -/
structure Line.Holds (l : Line) (t : Cursor UInt8) : Prop extends l.Reads t where
  shown : l.shown = t.text
  column : l.column = promptLen + t.pos

section

variable {l : Line} {t : Cursor UInt8}

theorem Line.Reads.redraw (h : l.Reads t) : ∃ l', l.redraw = some l' ∧ l'.Holds t := by
  have hread : peekRange l.line 0 l.len.toNat = some t.text := by
    have hlen := h.text.length_le
    have htext : l.line.take t.text.length = t.text := (prefix_iff_eq_take.mp h.text).symm
    have hrange := peekRange_eq (b := l.line) (p := 0) (n := t.text.length) (by omega)
    rw [drop_zero, htext] at hrange
    rw [h.len, Int.toNat_natCast]
    exact hrange
  rw [Line.redraw, hread, map_some]
  exact ⟨_, rfl, ⟨h.size, h.text, h.len, h.pos, h.room⟩, rfl, by rw [h.pos]⟩

theorem Line.Holds.left (h : l.Holds t) : ∃ l', l.left = some l' ∧ l'.Holds t.left := by
  unfold Line.left
  have hpos := h.pos
  by_cases hp : t.pos = 0
  · have hsame : t.left = t := Cursor.ext rfl (by simp [Cursor.left, hp])
    rw [if_neg (by omega), hsame]
    exact ⟨l, rfl, h⟩
  · rw [if_pos (by omega)]
    exact Line.Reads.redraw ⟨h.size, h.text, h.len, by simp [Cursor.left]; omega, h.room⟩

theorem Line.Holds.right (h : l.Holds t) : ∃ l', l.right = some l' ∧ l'.Holds t.right := by
  unfold Line.right
  have hpos := h.pos
  have hlen := h.len
  have hle := t.le
  by_cases hp : t.pos = t.text.length
  · have hsame : t.right = t := Cursor.ext rfl (by simp [Cursor.right, ← hp])
    rw [if_neg (by omega), hsame]
    exact ⟨l, rfl, h⟩
  · rw [if_pos (by omega)]
    exact Line.Reads.redraw ⟨h.size, h.text, h.len, by simp [Cursor.right]; omega, h.room⟩

theorem Line.Holds.home (h : l.Holds t) : ∃ l', l.home = some l' ∧ l'.Holds t.home :=
  Line.Reads.redraw ⟨h.size, h.text, h.len, rfl, h.room⟩

theorem Line.Holds.toEnd (h : l.Holds t) : ∃ l', l.toEnd = some l' ∧ l'.Holds t.toEnd :=
  Line.Reads.redraw ⟨h.size, h.text, h.len, h.len, h.room⟩

/-- The loop of `delete` and of `backspace`. -/
theorem Line.Reads.closeGap (h : l.Reads t) (hpos : t.pos < t.text.length) :
    ∃ line, countUp (copyCell 1 0) (l.len - 1 - t.pos).toNat t.pos l.line = some line ∧
      ∀ l' : Line, l'.line = line → l'.pos = t.pos → l'.len = l.len - 1 → l'.Reads t.delete := by
  have hlen := h.len
  have hsize := h.size
  have hroom := h.room
  have hcount : (l.len - 1 - t.pos).toNat = t.text.length - 1 - t.pos := by omega
  have hloop := countUp_copyCell (b := l.line) (i := t.pos) (p := t.pos + 1) (q := t.pos)
    (s := 1) (d := 0)
    (n := t.text.length - 1 - t.pos) (by omega) (by omega) (by omega) (by omega)
  have herase : t.delete.text.length = t.text.length - 1 := length_eraseIdx_of_lt hpos
  rw [hcount]
  refine ⟨_, hloop, fun l' hline hpos' hlen' => ⟨?_, ?_, ?_, hpos', ?_⟩⟩
  · rw [hline, length_overwrite (by simp; omega), h.size]
  · rw [hline]
    exact Cursor.delete_prefix h.text hpos
  · omega
  · omega

theorem Line.Holds.delete (h : l.Holds t) : ∃ l', l.delete = some l' ∧ l'.Holds t.delete := by
  unfold Line.delete
  have hpos := h.pos
  have hlen := h.len
  have hle := t.le
  by_cases hp : t.pos = t.text.length
  · have hsame : t.delete = t := Cursor.ext (eraseIdx_of_length_le (Nat.le_of_eq hp.symm)) rfl
    rw [if_neg (by omega), hsame]
    exact ⟨l, rfl, h⟩
  · obtain ⟨line, hloop, hreads⟩ := h.toReads.closeGap (by omega)
    rw [if_pos (by omega), hpos, hloop, bind_some]
    exact Line.Reads.redraw (hreads _ rfl rfl rfl)

theorem Line.Holds.backspace (h : l.Holds t) :
    ∃ l', l.backspace = some l' ∧ l'.Holds t.backspace := by
  unfold Line.backspace Cursor.backspace
  have hpos := h.pos
  have hle := t.le
  by_cases hp : t.pos = 0
  · rw [if_neg (by omega), if_pos hp]
    exact ⟨l, rfl, h⟩
  · -- as if the cursor was moved and the character under it deleted
    have hleft : ({ l with pos := l.pos - 1 } : Line).Reads t.left :=
      ⟨h.size, h.text, h.len, by simp [Cursor.left]; omega, h.room⟩
    have hmoved : (t.left.pos : Int) = l.pos - 1 := hleft.pos.symm
    obtain ⟨line, hloop, hreads⟩ := hleft.closeGap (by simp [Cursor.left]; omega)
    rw [if_pos (by omega), if_neg hp, ← hmoved, hloop, bind_some]
    exact Line.Reads.redraw (hreads _ rfl rfl rfl)

theorem Line.Holds.insert (h : l.Holds t) (c : UInt8) :
    ∃ l', l.insert c = some l' ∧ l'.Holds (t.insert lineMax c) := by
  unfold Line.insert Cursor.insert
  have hpos := h.pos
  have hlen := h.len
  have hsize := h.size
  have hle := t.le
  by_cases hroom : t.text.length < lineMax
  · have hcount : (l.len - l.pos).toNat = t.text.length - t.pos := by omega
    have hloop := countDown_copyCell (b := l.line) (i := l.len) (p := t.pos) (q := t.pos + 1)
      (s := -1) (d := 0)
      (n := t.text.length - t.pos) (by omega) (by omega) (by omega) (by omega)
    have hmoved :
        (overwrite l.line (t.pos + 1) ((l.line.drop t.pos).take (t.text.length - t.pos))).length =
        l.line.length := length_overwrite (by simp; omega)
    rw [if_pos (by omega), if_pos hroom, hcount, hloop, bind_some, hpos, poke_natCast (by omega),
      bind_some]
    have hinsert := t.length_insertAll [c]
    rw [length_singleton] at hinsert
    refine Line.Reads.redraw ⟨?_, ?_, ?_, rfl, by omega⟩
    · rw [length_overwrite (by simp; omega), hmoved, hsize]
    · exact Cursor.insertAll_prefix h.text (by omega) (by simp; omega)
    · dsimp only
      omega
  · rw [if_neg (by omega), if_neg hroom]
    exact ⟨l, rfl, h⟩

end

end AliOS
