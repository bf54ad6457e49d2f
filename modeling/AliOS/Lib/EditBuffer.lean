import Mathlib.Data.List.Basic

/-!
# AliOS.Lib.EditBuffer

Text in an array.  The lower half is the array of a C program: cells are read and written at
`int` indices, an access outside is `none`, and the loops that move a block of cells up or
down are seen to be one `overwrite`.  The upper half is an editor, a list of characters with
a cursor, and the two ways in which the array follows it: making room for characters and
closing the gap of a character.
-/

namespace AliOS.Lib

open List Option

variable {α σ : Type _}

/-! ## cells -/

/-- `b[i]`. -/
def peek (b : List α) (i : Int) : Option α := if 0 ≤ i then b[i.toNat]? else none

/-- `b[i] = c`. -/
def poke (b : List α) (i : Int) (c : α) : Option (List α) :=
  if 0 ≤ i ∧ i < b.length then some (b.set i.toNat c) else none

/-- `n` cells, from `b[i]` on. -/
def peekRange (b : List α) : Int → Nat → Option (List α)
  | _, 0 => some []
  | i, n + 1 => (peek b i).bind fun c => (peekRange b (i + 1) n).map (c :: ·)

/-- The cells from `b[i]` on become those of a list. -/
def pokeAll (b : List α) : Int → List α → Option (List α)
  | _, [] => some b
  | i, c :: cs => (poke b i c).bind fun b => pokeAll b (i + 1) cs

/-- `n` turns of a loop that counts up from `i`. -/
def countUp (f : Int → σ → Option σ) : Nat → Int → σ → Option σ
  | 0, _, s => some s
  | n + 1, i, s => (f i s).bind (countUp f n (i + 1))

/-- `n` turns of a loop that counts down from `i`. -/
def countDown (f : Int → σ → Option σ) : Nat → Int → σ → Option σ
  | 0, _, s => some s
  | n + 1, i, s => (f i s).bind (countDown f n (i - 1))

/-- `b[i + dst] = b[i + src]`. -/
def copyCell (src dst i : Int) (b : List α) : Option (List α) :=
  (peek b (i + src)).bind (poke b (i + dst))

/-- The cells from `p` on are replaced by those of a list. -/
def overwrite (b : List α) (p : Nat) (cs : List α) : List α :=
  b.take p ++ cs ++ b.drop (p + cs.length)

section

variable {b cs : List α} {c : α} {i : Int} {p n m : Nat}

theorem peek_natCast (b : List α) (p : Nat) : peek b p = b[p]? := by
  simp [peek]

theorem poke_natCast (h : p < b.length) : poke b p c = some (overwrite b p [c]) := by
  simp [poke, overwrite, h, set_eq_take_append_cons_drop]

theorem length_overwrite (h : p + cs.length ≤ b.length) : (overwrite b p cs).length = b.length := by
  simp [overwrite]
  omega

/-- Two lists one behind the other. -/
theorem overwrite_append {ds : List α} (h : p ≤ b.length) :
    overwrite (overwrite b p cs) (p + cs.length) ds = overwrite b p (cs ++ ds) := by
  have hlen : (b.take p ++ cs).length = p + cs.length := by simp [h]
  have hfront : (b.take p ++ cs ++ b.drop (p + cs.length)).take (p + cs.length) = b.take p ++ cs :=
    take_left' hlen
  have hback : (b.take p ++ cs ++ b.drop (p + cs.length)).drop (p + cs.length) =
      b.drop (p + cs.length) :=
    drop_left' hlen
  simp only [overwrite]
  rw [hfront, ← drop_drop, hback, drop_drop, length_append, ← Nat.add_assoc,
    append_assoc (b.take p)]

theorem getElem?_overwrite (h : p ≤ b.length) (k : Nat) :
    (overwrite b p cs)[k]? = if p ≤ k ∧ k < p + cs.length then cs[k - p]? else b[k]? := by
  have hp : (b.take p).length = p := length_take_of_le h
  unfold overwrite
  rw [append_assoc]
  by_cases hk : k < p
  · rw [List.getElem?_append_left (by omega), List.getElem?_take_of_lt hk, if_neg (by omega)]
  · rw [List.getElem?_append_right (by omega), hp]
    by_cases hcs : k - p < cs.length
    · rw [List.getElem?_append_left hcs, if_pos (by omega)]
    · rw [List.getElem?_append_right (by omega), List.getElem?_drop, if_neg (by omega)]
      congr 1
      omega

theorem peekRange_eq (h : p + n ≤ b.length) : peekRange b p n = some ((b.drop p).take n) := by
  induction n generalizing p with
  | zero => simp [peekRange]
  | succ n ih =>
    have hp : p < b.length := by omega
    have hnext := ih (p := p + 1) (by omega)
    rw [Int.natCast_succ] at hnext
    rw [peekRange, peek_natCast, List.getElem?_eq_getElem hp, bind_some, hnext, map_some,
      drop_eq_getElem_cons hp, take_succ_cons]

theorem pokeAll_eq (h : p + cs.length ≤ b.length) : pokeAll b p cs = some (overwrite b p cs) := by
  induction cs generalizing b p with
  | nil => simp [pokeAll, overwrite]
  | cons c cs ih =>
    rw [length_cons] at h
    have hlen : (overwrite b p [c]).length = b.length := length_overwrite (by simp; omega)
    have hnext := ih (b := overwrite b p [c]) (p := p + 1) (by omega)
    rw [Int.natCast_succ] at hnext
    rw [pokeAll, poke_natCast (by omega), bind_some, hnext]
    congr 1
    apply ext_getElem?
    intro k
    rw [getElem?_overwrite (by omega), getElem?_overwrite (by omega), getElem?_overwrite (by omega)]
    simp only [length_cons, length_nil]
    by_cases hk : k = p
    · rw [if_neg (by omega), if_pos (by omega), if_pos (by omega), hk]
      simp
    · by_cases hin : p + 1 ≤ k ∧ k < p + 1 + cs.length
      · rw [if_pos hin, if_pos (by omega), show k - p = k - (p + 1) + 1 by omega,
          List.getElem?_cons_succ]
      · rw [if_neg hin, if_neg (by omega), if_neg (by omega)]

/-- A block of the array in another place. -/
theorem getElem?_moved {q : Nat} (hp : p + n ≤ b.length) (hq : q ≤ b.length) (k : Nat) :
    (overwrite b q ((b.drop p).take n))[k]? = if q ≤ k ∧
      k < q + n then b[k - q + p]? else b[k]? := by
  have hlen : ((b.drop p).take n).length = n := by simp; omega
  rw [getElem?_overwrite hq, hlen]
  split
  · rw [List.getElem?_take_of_lt (by omega), List.getElem?_drop, Nat.add_comm]
  · rfl

/-- One turn of a copying loop. -/
theorem copyCell_eq {q : Nat} {s d : Int} (hs : i + s = p) (hd : i + d = q) (hp : p < b.length)
    (hq : q < b.length) : copyCell s d i b = some (overwrite b q [b[p]]) := by
  rw [copyCell, hs, hd, peek_natCast, List.getElem?_eq_getElem hp, bind_some, poke_natCast hq]

/-- A loop that copies cells downwards, to `q` from `p`. -/
theorem countUp_copyCell {q : Nat} {s d : Int} (hs : i + s = p) (hd : i + d = q) (hle : q ≤ p)
    (hlen : p + n ≤ b.length) :
    countUp (copyCell s d) n i b = some (overwrite b q ((b.drop p).take n)) := by
  induction n generalizing b i p q with
  | zero => simp [countUp, overwrite]
  | succ n ih =>
    have hfirst : (overwrite b q [b[p]]).length = b.length := length_overwrite (by simp; omega)
    rw [countUp, copyCell_eq hs hd (by omega) (by omega), bind_some,
      ih (p := p + 1) (q := q + 1) (by omega) (by omega) (by omega) (by omega)]
    congr 1
    apply ext_getElem?
    intro k
    rw [getElem?_moved (by omega) (by omega), getElem?_moved (by omega) (by omega)]
    simp only [getElem?_overwrite (show q ≤ b.length by omega), length_singleton]
    by_cases hk : k = q
    · rw [if_neg (by omega), if_pos (by omega), if_pos (by omega), hk]
      simp
    · by_cases hin : q + 1 ≤ k ∧ k < q + 1 + n
      · rw [if_pos hin, if_neg (by omega), if_pos (by omega)]
        congr 1
        omega
      · rw [if_neg hin, if_neg (by omega), if_neg (by omega)]

/-- A loop that copies cells upwards, to `q` from `p`, the last one first. -/
theorem countDown_copyCell {q : Nat} {s d : Int} (hs : i + s + 1 = p + n) (hd : i + d + 1 = q + n)
    (hle : p ≤ q)
    (hlen : q + n ≤ b.length) : countDown (copyCell s d) n i b =
      some (overwrite b q ((b.drop p).take n)) := by
  induction n generalizing b i with
  | zero => simp [countDown, overwrite]
  | succ n ih =>
    have hfirst : (overwrite b (q + n) [b[p + n]]).length = b.length :=
      length_overwrite (by simp; omega)
    rw [countDown, copyCell_eq (p := p + n) (q := q + n) (by omega) (by omega)
      (by omega) (by omega), bind_some, ih (by omega) (by omega) (by omega)]
    congr 1
    apply ext_getElem?
    intro k
    rw [getElem?_moved (by omega) (by omega), getElem?_moved (by omega) (by omega)]
    simp only [getElem?_overwrite (show q + n ≤ b.length by omega), length_singleton]
    by_cases hk : k = q + n
    · rw [if_neg (by omega), if_pos (by omega), if_pos (by omega), hk]
      simp [Nat.add_comm]
    · by_cases hin : q ≤ k ∧ k < q + n
      · rw [if_pos hin, if_neg (by omega), if_pos (by omega)]
      · rw [if_neg hin, if_neg (by omega), if_neg (by omega)]

end

/-! ## strings -/

/-- `while (i < n && b[i])`, for `n` turns from `i` on: the characters that are seen. -/
def readUpTo (b : List UInt8) : Nat → Int → Option (List UInt8)
  | 0, _ => some []
  | n + 1, i => (peek b i).bind fun c => if c = 0 then some []
      else (readUpTo b n (i + 1)).map (c :: ·)

/-- `while (b[i])`, from the start.  Behind the end of the array there is no terminator. -/
def readStr (b : List UInt8) : Option (List UInt8) := readUpTo b (b.length + 1) 0

/-- The reading ends inside the array. -/
theorem readUpTo_eq {b : List UInt8} {n p : Nat} (h : p + n ≤ b.length ∨ 0 ∈ b.drop p) :
    readUpTo b n p = some (((b.drop p).takeWhile (· != 0)).take n) := by
  induction n generalizing p with
  | zero => simp [readUpTo]
  | succ n ih =>
    have hp : p < b.length := by
      rcases h with h | h
      · omega
      · by_contra hge
        simp [drop_eq_nil_of_le (Nat.le_of_not_lt hge)] at h
    have hnext := ih (p := p + 1)
    rw [Int.natCast_succ] at hnext
    rw [readUpTo, peek_natCast, List.getElem?_eq_getElem hp, bind_some, drop_eq_getElem_cons hp]
    by_cases hc : b[p] = 0
    · simp [hc]
    · have hrest : p + 1 + n ≤ b.length ∨ 0 ∈ b.drop (p + 1) := by
        rw [drop_eq_getElem_cons hp, mem_cons] at h
        rcases h with h | h | h
        · exact .inl (by omega)
        · exact absurd h.symm hc
        · exact .inr h
      rw [if_neg hc, hnext hrest, map_some, takeWhile_cons_of_pos (by simpa using hc),
        take_succ_cons]

theorem readStr_eq {b : List UInt8} (h : 0 ∈ b) : readStr b = some (b.takeWhile (· != 0)) := by
  have hread := readUpTo_eq (b := b) (n := b.length + 1) (p := 0) (.inr h)
  rw [drop_zero, List.take_of_length_le] at hread
  · exact hread
  · exact Nat.le_succ_of_le (takeWhile_sublist _).length_le

/-! ## an editor -/

/-- A text and a place in it. -/
@[ext] structure Cursor (α : Type _) where
  text : List α
  pos : Nat
  le : pos ≤ text.length

namespace Cursor

variable (t : Cursor α)

def before : List α := t.text.take t.pos

def after : List α := t.text.drop t.pos

theorem length_before : t.before.length = t.pos := length_take_of_le t.le

/-- Characters in front of the cursor. -/
def insertAll (cs : List α) : Cursor α where
  text := t.before ++ cs ++ t.after
  pos := t.pos + cs.length
  le := by
    rw [length_append, length_append, t.length_before]
    exact Nat.le_add_right _ _

/-- A character in front of the cursor, if there are less than `cap`. -/
def insert (cap : Nat) (c : α) : Cursor α := if t.text.length < cap then t.insertAll [c] else t

/-- The character at the cursor goes. -/
def delete : Cursor α where
  text := t.text.eraseIdx t.pos
  pos := t.pos
  le := by
    have h := t.le
    rw [length_eraseIdx]
    split <;> omega

def left : Cursor α := ⟨t.text, t.pos - 1, by have h := t.le; omega⟩

def right : Cursor α := ⟨t.text, min (t.pos + 1) t.text.length, by omega⟩

def home : Cursor α := ⟨t.text, 0, by omega⟩

def toEnd : Cursor α := ⟨t.text, t.text.length, by omega⟩

/-- The character before the cursor goes. -/
def backspace : Cursor α := if t.pos = 0 then t else t.left.delete

theorem text_insertAll (cs : List α) : (t.insertAll cs).text = t.before ++ cs ++ t.after := rfl

theorem text_delete : t.delete.text = t.text.take t.pos ++ t.text.drop (t.pos + 1) :=
  eraseIdx_eq_take_drop_succ _ _

theorem length_insertAll (cs : List α) :
    (t.insertAll cs).text.length = t.text.length + cs.length := by
  simp [text_insertAll, before, after]
  omega

end Cursor

/-! ## the array follows -/

section

variable {b cs : List α} {p m : Nat} {t : Cursor α}

theorem take_overwrite (hm : m ≤ p) (hp : p ≤ b.length) : (overwrite b p cs).take m = b.take m := by
  rw [overwrite, append_assoc, take_append_of_le_length (by simp; omega), take_take,
    Nat.min_eq_left hm]

theorem drop_overwrite (hp : p ≤ b.length) :
    (overwrite b p cs).drop p = cs ++ b.drop (p + cs.length) := by
  rw [overwrite, append_assoc, drop_left' (length_take_of_le hp)]

theorem Cursor.before_eq (h : t.text <+: b) : t.before = b.take t.pos := by
  obtain ⟨rest, rfl⟩ := h
  rw [Cursor.before, take_append_of_le_length t.le]

theorem Cursor.after_prefix (h : t.text <+: b) (hm : t.text.length - t.pos ≤ m) :
    t.after <+: (b.drop t.pos).take m := by
  obtain ⟨rest, rfl⟩ := h
  rw [drop_append_of_le_length t.le, take_append]
  have hall : (t.text.drop t.pos).take m = t.after := List.take_of_length_le (by simpa using hm)
  rw [hall]
  exact prefix_append _ _

/-- Room is made by moving what stands behind the cursor, and filled. -/
theorem Cursor.insertAll_prefix (h : t.text <+: b) (hm : t.text.length - t.pos ≤ m)
    (hlen : t.pos + cs.length + m ≤ b.length) : (t.insertAll cs).text <+:
      overwrite (overwrite b (t.pos + cs.length) ((b.drop t.pos).take m)) t.pos cs := by
  rw [overwrite, take_overwrite (by omega) (by omega), drop_overwrite (by omega), t.text_insertAll,
    Cursor.before_eq h, prefix_append_right_inj]
  exact (Cursor.after_prefix h hm).trans (prefix_append _ _)

/-- The gap of a character is closed. -/
theorem Cursor.delete_prefix (h : t.text <+: b) (hpos : t.pos < t.text.length) : t.delete.text <+:
    overwrite b t.pos ((b.drop (t.pos + 1)).take (t.text.length - 1 - t.pos)) := by
  obtain ⟨rest, rfl⟩ := h
  have hrest : ((t.text ++ rest).drop (t.pos + 1)).take (t.text.length - 1 - t.pos) =
      t.text.drop (t.pos + 1) := by
    rw [drop_append_of_le_length hpos, take_append_of_le_length (by simp; omega),
      List.take_of_length_le (by simp; omega)]
  rw [hrest, overwrite, take_append_of_le_length t.le, t.text_delete]
  exact prefix_append _ _

end

end AliOS.Lib
