import Mathlib.Algebra.Ring.Nat
import AliOS.Lib.Loop

/-!
# AliOS.Vga

The text screen (`kernel/vga.c`).  The cells are in memory row by row, and the region between
`scroll_top` and `scroll_bot` scrolls.  A terminal that knows rows, and not memory, is the
reference: what `vga_putchar` leaves in the region is what the terminal shows, and the cells
outside are not touched.
-/

namespace AliOS

open Lib Function

/-! ## the driver -/

/-- A character with its colours. -/
def vgaCell (attr ch : UInt8) : UInt16 := attr.toUInt16 <<< 8 ||| ch.toUInt16

/-- The memory at `VGA_BASE`, 25 rows of 80 cells, the variables of the driver and the place of
the hardware cursor. -/
structure Vga where
  cells : Nat → UInt16
  row : Nat
  col : Nat
  attr : UInt8
  scrollTop : Nat
  scrollBot : Nat
  cursor : Nat

namespace Vga

def writeCell (v : Vga) (r c : Nat) (ch : UInt8) : Vga :=
  { v with cells := update v.cells (r * 80 + c) (vgaCell v.attr ch) }

def scroll (v : Vga) : Vga :=
  let moved := forRange (fun r cells => forRange (fun c cells =>
    update cells (r * 80 + c) (cells ((r + 1) * 80 + c))) 0 80 cells)
    v.scrollTop (v.scrollBot - v.scrollTop) v.cells
  let blanked := forRange (fun c cells =>
    ({ v with cells := cells }.writeCell v.scrollBot c 32).cells) 0 80 moved
  { v with cells := blanked, row := v.scrollBot }

def updateCursor (v : Vga) : Vga := { v with cursor := (v.row * 80 + v.col) % 2 ^ 16 }

/-- The end of `vga_putchar`. -/
def settle (v : Vga) : Vga := (if v.row > v.scrollBot then v.scroll else v).updateCursor

def vgaPutchar (v : Vga) (ch : UInt8) : Vga :=
  settle <|
    if ch = 10 then { v with col := 0, row := v.row + 1 }
    else if ch = 13 then { v with col := 0 }
    else if ch = 8 then
      if v.col > 0 then { v with col := v.col - 1 }.writeCell v.row (v.col - 1) 32 else v
    else if v.col + 1 ≥ 80 then { v.writeCell v.row v.col ch with col := 0, row := v.row + 1 }
    else { v.writeCell v.row v.col ch with col := v.col + 1 }

def vgaSetScrollRegion (v : Vga) (top bot : Nat) : Vga :=
  updateCursor { v with scrollTop := top, scrollBot := bot, row := top, col := 0 }

end Vga

/-! ## a terminal -/

/-- Rows of 80 cells and a place in them. -/
structure Terminal where
  height : Nat
  screen : Nat → Nat → UInt16
  row : Nat
  col : Nat
  attr : UInt8

namespace Terminal

def write (t : Terminal) (c : Nat) (ch : UInt8) : Terminal :=
  { t with
    screen := fun r' c' => if r' = t.row ∧ c' = c then vgaCell t.attr ch else t.screen r' c' }

/-- To the start of the next row.  Behind the last one, the first goes and an empty one comes. -/
def nextRow (t : Terminal) : Terminal :=
  if t.row + 1 < t.height then { t with row := t.row + 1, col := 0 }
  else { t with
    screen := fun r c => if r + 1 < t.height then t.screen (r + 1) c else vgaCell t.attr 32
    col := 0 }

def put (t : Terminal) (ch : UInt8) : Terminal :=
  if ch = 10 then t.nextRow
  else if ch = 13 then { t with col := 0 }
  else if ch = 8 then if t.col = 0 then t else { t.write (t.col - 1) 32 with col := t.col - 1 }
  else if t.col + 1 = 80 then (t.write t.col ch).nextRow
  else { t.write t.col ch with col := t.col + 1 }

end Terminal

namespace Vga

/-- The region from `top` to `bot` shows the terminal, and the cells outside are the old ones. -/
structure Shows (old : Nat → UInt16) (top bot : Nat) (t : Terminal) (v : Vga) : Prop where
  scrollTop : v.scrollTop = top
  scrollBot : v.scrollBot = bot
  height : bot + 1 = top + t.height
  row : v.row = top + t.row
  row_lt : t.row < t.height
  col : v.col = t.col
  col_lt : t.col < 80
  attr : v.attr = t.attr
  cells : ∀ r < t.height, ∀ c < 80, v.cells ((top + r) * 80 + c) = t.screen r c
  outside : ∀ j, j < top * 80 ∨ (bot + 1) * 80 ≤ j → v.cells j = old j

section

variable {old : Nat → UInt16} {top bot c : Nat} {t : Terminal} {v : Vga}

theorem cells_scroll (h : v.scrollTop ≤ v.scrollBot) (j : Nat) : v.scroll.cells j =
    if v.scrollBot * 80 ≤ j ∧ j < v.scrollBot * 80 + 80 then vgaCell v.attr 32
    else if v.scrollTop * 80 ≤ j ∧ j < v.scrollBot * 80 then v.cells (j + 80) else v.cells j := by
  have hmoved := forRange_induct (a := v.scrollTop) (n := v.scrollBot - v.scrollTop) (s := v.cells)
    (fun r f => f = fun j => if v.scrollTop * 80 ≤ j ∧
      j < r * 80 then v.cells (j + 80) else v.cells j)
    (f := fun r cells => forRange (fun c cells =>
      update cells (r * 80 + c) (cells ((r + 1) * 80 + c))) 0 80 cells)
    (funext fun j => (if_neg (by omega)).symm) fun r f _ _ hf => ?_
  · rw [Nat.add_sub_cancel' h] at hmoved
    have hfill := @forRange_update 80 (v.scrollBot * 80) 0 UInt16
      (fun j => if v.scrollTop * 80 ≤ j ∧ j < v.scrollBot * 80 then v.cells (j + 80) else v.cells j)
      (fun _ => vgaCell v.attr 32) (fun _ _ => vgaCell v.attr 32) fun _ _ _ => rfl
    simp only [scroll, writeCell, hmoved]
    exact congrFun hfill j
  · -- a row takes the place of the one above it
    have hrow := @forRange_update 80 (r * 80) 0 UInt16 f (fun j => f (j + 80))
      (fun c cells => cells ((r + 1) * 80 + c)) fun c f' hf' => by
        rw [hf' _ (by omega)]
        congr 1
        omega
    funext j
    grind

section

variable (h : Shows old top bot t v)

include h

/-- A character is written into the row of the cursor. -/
theorem Shows.writeCell (hc : c < 80) (ch : UInt8) :
    Shows old top bot (t.write c ch) (v.writeCell v.row c ch) := by
  have hrow := h.row
  have hlt := h.row_lt
  have hheight := h.height
  refine ⟨h.scrollTop, h.scrollBot, hheight, hrow, hlt, h.col, h.col_lt, h.attr,
    fun r hr c' hc' => ?_, fun j hj => ?_⟩
  · simp only [Vga.writeCell, Terminal.write]
    split
    · rename_i heq
      rw [heq.1, heq.2, ← hrow, ← h.attr]
      exact update_self _ _ _
    · rw [update_of_ne (by omega)]
      exact h.cells r hr c' hc'
  · exact (update_of_ne (by omega) _ _).trans (h.outside j hj)

/-- The cursor has moved inside the region. -/
theorem Shows.settle : Shows old top bot t v.settle := by
  obtain ⟨htop, hbot, hheight, hrow, hlt, hcol, hcol', hattr, hcells, hout⟩ := h
  rw [Vga.settle, if_neg (by omega)]
  exact ⟨htop, hbot, hheight, hrow, hlt, hcol, hcol', hattr, hcells, hout⟩

/-- The next row. -/
theorem Shows.nextRow :
    Shows old top bot t.nextRow (Vga.settle { v with col := 0, row := v.row + 1 }) := by
  obtain ⟨htop, hbot, hheight, hrow, hlt, -, -, hattr, hcells, hout⟩ := h
  have hzero : 0 < 80 := by decide
  unfold Terminal.nextRow
  by_cases hlast : t.row + 1 < t.height
  · have hnext : v.row + 1 = top + (t.row + 1) := by omega
    rw [if_pos hlast]
    exact Shows.settle ⟨htop, hbot, hheight, hnext, hlast, rfl, hzero, hattr, hcells, hout⟩
  · have hend : v.scrollBot = top + t.row := by omega
    have hscroll := @cells_scroll { v with col := 0, row := v.row + 1 } (by dsimp only; omega)
    dsimp only at hscroll
    rw [if_neg hlast, Vga.settle, if_pos (by dsimp only; omega)]
    refine ⟨htop, hbot, hheight, hend, hlt, rfl, hzero, hattr, fun r (hr : r < t.height) c hc => ?_,
      fun j hj => ?_⟩
    · refine (hscroll ((top + r) * 80 + c)).trans ?_
      dsimp only
      by_cases hr' : r + 1 < t.height
      · rw [if_neg (by omega), if_pos (by omega), if_pos hr', ← hcells _ hr' c hc]
        congr 1
        omega
      · rw [if_pos (by omega), if_neg hr', hattr]
    · refine (hscroll j).trans ?_
      rw [if_neg (by omega), if_neg (by omega), hout j hj]

theorem Shows.setCol (hc : c < 80) :
    Shows old top bot { t with col := c } { v with col := c } :=
  ⟨h.scrollTop, h.scrollBot, h.height, h.row, h.row_lt, rfl, hc, h.attr, h.cells, h.outside⟩

theorem Shows.vgaPutchar (ch : UInt8) :
    Shows old top bot (t.put ch) (v.vgaPutchar ch) := by
  have hcol := h.col
  have hlt := h.col_lt
  unfold Vga.vgaPutchar Terminal.put
  by_cases hnl : ch = 10
  · rw [if_pos hnl, if_pos hnl]
    exact h.nextRow
  rw [if_neg hnl, if_neg hnl]
  by_cases hcr : ch = 13
  · rw [if_pos hcr, if_pos hcr]
    exact (h.setCol (by decide)).settle
  rw [if_neg hcr, if_neg hcr]
  by_cases hbs : ch = 8
  · rw [if_pos hbs, if_pos hbs, ← hcol]
    by_cases h0 : v.col = 0
    · rw [if_pos h0, if_neg (by omega)]
      exact h.settle
    · rw [if_neg h0, if_pos (by omega)]
      exact ((@Shows.writeCell _ _ _ (v.col - 1) _ _ h (by omega) 32).setCol (by omega)).settle
  have hw := @Shows.writeCell _ _ _ v.col _ _ h (by omega) ch
  rw [if_neg hbs, if_neg hbs, ← hcol]
  by_cases hend : v.col + 1 = 80
  · rw [if_pos hend, if_pos (by omega)]
    exact hw.nextRow
  · rw [if_neg hend, if_neg (by omega)]
    exact (hw.setCol (by omega)).settle

theorem Shows.foldl (s : List UInt8) :
    Shows old top bot (s.foldl Terminal.put t) (s.foldl Vga.vgaPutchar v) := by
  induction s generalizing t v with
  | nil => exact h
  | cons ch _ ih => exact ih (h.vgaPutchar ch)

end

end

end Vga

/-- **The region is a terminal.**  After any characters the cursor is in the region, the cells
outside are as they were, and the region shows what the terminal does. -/
theorem vga_region_terminal (v : Vga) {top bot : Nat} (h : top ≤ bot) (s : List UInt8) :
    let w := s.foldl Vga.vgaPutchar (v.vgaSetScrollRegion top bot)
    let t := s.foldl Terminal.put ⟨bot + 1 - top, fun r c => v.cells ((top + r) * 80 + c), 0, 0,
      v.attr⟩
    (top ≤ w.row ∧ w.row ≤ bot ∧ w.col < 80) ∧
      (∀ j, j < top * 80 ∨ (bot + 1) * 80 ≤ j → w.cells j = v.cells j) ∧
      w.row = top + t.row ∧ w.col = t.col ∧
      ∀ r < bot + 1 - top, ∀ c < 80, w.cells ((top + r) * 80 + c) = t.screen r c := by
  have hstart : Vga.Shows v.cells top bot
      ⟨bot + 1 - top, fun r c => v.cells ((top + r) * 80 + c), 0, 0, v.attr⟩
        (v.vgaSetScrollRegion top bot) :=
    ⟨rfl, rfl, by dsimp; omega, rfl, by dsimp; omega, rfl, by dsimp; omega, rfl, fun _ _ _ _ => rfl,
      fun _ _ => rfl⟩
  obtain ⟨-, -, hheight, hrow, hlt, hcol, hcol', -, hcells, hout⟩ := hstart.foldl s
  exact ⟨⟨by omega, by omega, by omega⟩, hout, hrow, hcol, fun r hr => hcells r (by omega)⟩

/-- The status row of the shell. -/
theorem vga_region_terminal_shell : (([97, 10] : List UInt8).foldl Vga.vgaPutchar
    (Vga.vgaSetScrollRegion ⟨fun _ => 0, 0, 0, 7, 0, 24, 0⟩ 1 22)).cells 0 = 0 :=
  (vga_region_terminal _ (by decide) [97, 10]).2.1 0 (by decide)

end AliOS
