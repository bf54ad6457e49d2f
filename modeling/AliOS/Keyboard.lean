import AliOS.Shell.Editor

/-!
# AliOS.Keyboard

The keyboard queue (`kernel/keyboard.c`): the handler of IRQ 1 puts characters in and
`keyboard_getchar` takes them out.  The interrupt comes at any time, also between two accesses
of `keyboard_getchar` to the queue.  One cell stays free, which tells a full queue from an
empty one.
-/

namespace AliOS

open Lib Function

def scUnshifted : List UInt8 :=
  "\x00\x001234567890-=\x08\tqwertyuiop[]\n\x00asdfghjkl;'`\x00\\zxcvbnm,./\x00*\x00 ".toList.map
    Char.toUInt8

def scShifted : List UInt8 :=
  "\x00\x00!@#$%^&*()_+\x08\tQWERTYUIOP\x7b\x7d\n\x00ASDFGHJKL:\"~\x00|ZXCVBNM<>?\x00*\x00 "
    |>.toList.map Char.toUInt8

/-- The flags of `kbd_handler`. -/
structure KeyFlags where
  shift : Bool
  ctrl : Bool
  extended : Bool

def extendedKey (sc : UInt8) : Option UInt8 :=
  match sc with
  | 0x48 => some keyUp
  | 0x50 => some keyDown
  | 0x4B => some keyLeft
  | 0x4D => some keyRight
  | 0x53 => some keyDel
  | 0x47 => some keyHome
  | 0x4F => some keyEnd
  | _ => none

/-- The character of a key in a table; with Ctrl a letter gives a control character. -/
def tableKey (ctrl : Bool) (c : UInt8) : Option UInt8 :=
  let lc := if 65 ≤ c ∧ c ≤ 90 then c + 32 else c
  if c = 0 then none
  else if ctrl ∧ 97 ≤ lc ∧ lc ≤ 122 then some (lc &&& 0x1F)
  else some c

/-- `kbd_handler`, up to the call of `buf_push`: the character to push, if there is one.  For
Ctrl-C `ctrlc_fn` is called, which has nothing to do with the queue. -/
def kbdHandler (k : KeyFlags) (sc : UInt8) : Option UInt8 × KeyFlags :=
  if sc = 0xE0 then (none, { k with extended := true })
  else if k.extended then
    (if sc &&& 0x80 ≠ 0 then none else extendedKey sc, { k with extended := false })
  else if sc &&& 0x80 ≠ 0 then
    let sc := sc &&& 0x7F
    (none, { k with
      shift := if sc = 0x2A ∨ sc = 0x36 then false else k.shift
      ctrl := if sc = 0x1D then false else k.ctrl })
  else if sc = 0x2A ∨ sc = 0x36 then (none, { k with shift := true })
  else if sc = 0x1D then (none, { k with ctrl := true })
  else if k.ctrl ∧ sc = 0x2E then (none, k)
  else (tableKey k.ctrl ((if k.shift then scShifted else scUnshifted).getD sc.toNat 0), k)

theorem kbdHandler_ne_zero (k : KeyFlags) (sc : UInt8) : (kbdHandler k sc).1 ≠ some 0 := by
  have hext : extendedKey sc ≠ some 0 := by
    unfold extendedKey
    split <;> decide
  have htable : ∀ t ∈ [scShifted, scUnshifted],
      ∀ c ∈ 0 :: t, ∀ ctrl, tableKey ctrl c ≠ some 0 := by decide +kernel
  have hkey : ∀ t ∈ [scShifted, scUnshifted], tableKey k.ctrl (t.getD sc.toNat 0) ≠ some 0 :=
    fun t ht =>
    htable t ht _ (by grind) _
  unfold kbdHandler
  split_ifs <;> first | exact hkey _ (by simp) | simp [hext]

/-! ## the queue -/

/-- Where `keyboard_getchar` is. -/
inductive Getchar
  | start
  | nonempty
  | taken (c : UInt8)

/-- The queue, with the characters that `buf_push` has accepted and those that
`keyboard_getchar` has returned. -/
structure Keyboard where
  flags : KeyFlags
  buf : Nat → UInt8
  bufHead : Nat
  bufTail : Nat
  getchar : Getchar
  accepted : List UInt8
  returned : List UInt8

/-- An interrupt, or the next access of `keyboard_getchar`. -/
inductive KeyEvent
  | irq (sc : UInt8)
  | get

namespace Keyboard

def init : Keyboard := ⟨⟨false, false, false⟩, fun _ => 0, 0, 0, .start, [], []⟩

def bufPush (k : Keyboard) (c : UInt8) : Keyboard :=
  let next := (k.bufHead + 1) % 64
  if next ≠ k.bufTail then
    { k with buf := update k.buf k.bufHead c, bufHead := next, accepted := k.accepted ++ [c] }
  else k

def step (k : Keyboard) : KeyEvent → Keyboard
  | .irq sc =>
    let (c, flags) := kbdHandler k.flags sc
    c.elim { k with flags } { k with flags }.bufPush
  | .get =>
    match k.getchar with
    | .start =>
      if k.bufTail = k.bufHead then { k with returned := k.returned ++ [0] }
        else { k with getchar := .nonempty }
    | .nonempty => { k with getchar := .taken (k.buf k.bufTail) }
    | .taken c =>
      { k with bufTail := (k.bufTail + 1) % 64, getchar := .start, returned := k.returned ++ [c] }

/-- The characters in the queue, oldest first. -/
def queued (k : Keyboard) : List UInt8 :=
  window k.buf 64 k.bufTail ((k.bufHead + 64 - k.bufTail) % 64)

structure Inv (k : Keyboard) : Prop where
  head : k.bufHead < 64
  tail : k.bufTail < 64
  fifo : k.accepted = k.returned.filter (· ≠ 0) ++ k.queued
  chars : 0 ∉ k.accepted
  nonempty : k.getchar ≠ .start → k.queued ≠ []
  taken : ∀ c, k.getchar = .taken c → k.buf k.bufTail = c

variable {k : Keyboard}

theorem Inv.queued_eq_nil (h : k.Inv) : k.queued = [] ↔ k.bufTail = k.bufHead := by
  have := h.head
  have := h.tail
  rw [← List.length_eq_zero_iff, queued, length_window]
  omega

theorem Inv.queued_cons (h : k.Inv) (hne : k.queued ≠ []) :
    k.queued = k.buf k.bufTail :: { k with bufTail := (k.bufTail + 1) % 64 : Keyboard }.queued := by
  have hh := h.head
  have ht := h.tail
  rw [Ne, h.queued_eq_nil] at hne
  have hn : (k.bufHead + 64 - k.bufTail) % 64 =
      (k.bufHead + 64 - (k.bufTail + 1) % 64) % 64 + 1 := by omega
  rw [queued, hn, window_succ, Nat.mod_eq_of_lt ht, window_congr _ (Nat.mod_mod _ _).symm]
  rfl

/-- A full queue takes nothing, and any other one takes the character. -/
theorem Inv.bufPush (h : k.Inv) (c : UInt8) :
    (k.bufPush c).queued = (if k.queued.length = 63 then k.queued else k.queued ++ [c]) ∧
      (c ≠ 0 → (k.bufPush c).Inv) := by
  have hh := h.head
  have ht := h.tail
  have hlen : k.queued.length = (k.bufHead + 64 - k.bufTail) % 64 := length_window _ _ _ _
  by_cases hfull : (k.bufHead + 1) % 64 = k.bufTail
  · have heq : k.bufPush c = k := if_neg (not_not.mpr hfull)
    rw [heq, if_pos (by omega)]
    exact ⟨rfl, fun _ => h⟩
  · have heq : k.bufPush c = { k with
        buf := update k.buf k.bufHead c, bufHead := (k.bufHead + 1) % 64, accepted :=
          k.accepted ++ [c] } :=
      if_pos hfull
    have hq : (k.bufPush c).queued = k.queued ++ [c] := by
      have hhead : k.bufHead = (k.bufTail + k.queued.length) % 64 := by omega
      rw [heq, queued, show ((k.bufHead + 1) % 64 + 64 - k.bufTail) % 64 =
        k.queued.length + 1 by omega]
      dsimp only
      rw [hhead, window_update (by omega), hlen]
      rfl
    rw [if_neg (by omega), hq]
    refine ⟨rfl, fun hc => ?_⟩
    rw [heq] at hq ⊢
    refine ⟨Nat.mod_lt _ (by decide), ht, ?_, by simpa [h.chars] using hc.symm, by simp [hq],
      fun d hd => ?_⟩
    · rw [hq, ← List.append_assoc, ← h.fifo]
    · have hne := h.nonempty (by rw [hd]; simp)
      rw [Ne, h.queued_eq_nil] at hne
      exact (update_of_ne hne _ _).trans (h.taken d hd)

theorem Inv.taken_ne_zero (h : k.Inv) {c : UInt8} (hc : k.getchar = .taken c) : c ≠ 0 := by
  rintro rfl
  have hq := h.queued_cons (h.nonempty (by simp [hc]))
  refine h.chars ?_
  rw [h.fifo, hq, h.taken 0 hc]
  simp

theorem Inv.step (h : k.Inv) (e : KeyEvent) : (k.step e).Inv := by
  cases e with
  | irq sc =>
    have hflags : { k with flags := (kbdHandler k.flags sc).2 : Keyboard }.Inv :=
      ⟨h.head, h.tail, h.fifo, h.chars, h.nonempty, h.taken⟩
    have hne := kbdHandler_ne_zero k.flags sc
    simp only [Keyboard.step]
    cases hc : (kbdHandler k.flags sc).1 with
    | none => exact hflags
    | some c => exact (hflags.bufPush c).2 fun h0 => hne (h0 ▸ hc)
  | get =>
    simp only [Keyboard.step]
    cases hg : k.getchar with
    | start =>
      dsimp only
      split
      · exact { h with
          fifo := by simpa [queued] using h.fifo, nonempty := by simp, taken := by simp }
      · rename_i hne
        exact { h with nonempty := fun _ => mt h.queued_eq_nil.mp hne, taken := by simp }
    | nonempty =>
      exact { h with
        nonempty := fun _ => h.nonempty (by simp [hg])
        taken := fun c hc => Getchar.taken.inj hc }
    | taken c =>
      have hq := h.queued_cons (h.nonempty (by simp [hg]))
      rw [h.taken c hg] at hq
      exact { h with
        tail := Nat.mod_lt _ (by decide)
        fifo := h.fifo.trans (by rw [hq]; simp [h.taken_ne_zero hg, queued])
        nonempty := by simp
        taken := by simp }

/-- An interrupt queues the character that `kbd_handler` finds for the scancode, if there is one
and there is room. -/
def Delivers (k : Keyboard) (sc : UInt8) (k' : Keyboard) : Prop :=
  k'.flags = (kbdHandler k.flags sc).2 ∧ k'.getchar = k.getchar ∧ k'.returned = k.returned ∧
    k'.queued = if k.queued.length = 63 then k.queued
      else k.queued ++ (kbdHandler k.flags sc).1.toList

/-- An access of `keyboard_getchar`: it returns 0 when it finds the queue empty, and otherwise
takes the oldest character, removes it and returns it. -/
def Fetches (k k' : Keyboard) : Prop :=
  match k.getchar with
  | .start => k'.queued = k.queued ∧
      if k.queued = [] then k'.getchar = .start ∧ k'.returned = k.returned ++ [0]
      else k'.getchar = .nonempty ∧ k'.returned = k.returned
  | .nonempty => k'.queued = k.queued ∧ k'.returned = k.returned ∧
      ∃ c, k.queued.head? = some c ∧ k'.getchar = .taken c
  | .taken c => k.queued = c :: k'.queued ∧ k'.getchar = .start ∧ k'.returned = k.returned ++ [c]

theorem Inv.delivers (h : k.Inv) (sc : UInt8) : k.Delivers sc (k.step (.irq sc)) := by
  have hflags : { k with flags := (kbdHandler k.flags sc).2 : Keyboard }.Inv :=
    ⟨h.head, h.tail, h.fifo, h.chars, h.nonempty, h.taken⟩
  simp only [Delivers, Keyboard.step]
  cases (kbdHandler k.flags sc).1 with
  | none => simp [queued]
  | some c =>
    have hrest : ∀ k : Keyboard, (k.bufPush c).flags = k.flags ∧
        (k.bufPush c).getchar = k.getchar ∧ (k.bufPush c).returned = k.returned := by
      intro k
      unfold Keyboard.bufPush
      dsimp only
      split <;> exact ⟨rfl, rfl, rfl⟩
    obtain ⟨hf, hg, hr⟩ := hrest { k with flags := (kbdHandler k.flags sc).2 }
    exact ⟨hf, hg, hr, (hflags.bufPush c).1⟩

theorem Inv.fetches (h : k.Inv) : k.Fetches (k.step .get) := by
  simp only [Fetches, Keyboard.step]
  cases hg : k.getchar with
  | start =>
    simp only [h.queued_eq_nil]
    split <;> exact ⟨rfl, by simp [*]⟩
  | nonempty =>
    refine ⟨rfl, rfl, k.buf k.bufTail, ?_, rfl⟩
    rw [h.queued_cons (h.nonempty (by simp [hg]))]
    rfl
  | taken c =>
    have hq := h.queued_cons (h.nonempty (by simp [hg]))
    rw [h.taken c hg] at hq
    exact ⟨hq, rfl, rfl⟩

end Keyboard

/-- **The keyboard queue** after any events: what has been returned and what is queued are the
characters accepted; an interrupt queues its character unless 63 are queued;
`keyboard_getchar` returns the oldest one, and 0 when there is none. -/
theorem keyboard_fifo (es : List KeyEvent) :
    let k := es.foldl Keyboard.step .init
    k.accepted = k.returned.filter (· ≠ 0) ++ k.queued ∧ 0 ∉ k.accepted ∧
      (∀ c, (k.bufPush c).queued = if k.queued.length = 63 then k.queued else k.queued ++ [c]) ∧
      (∀ sc, k.Delivers sc (k.step (.irq sc))) ∧ k.Fetches (k.step .get) ∧
      ((k.step .get).returned = k.returned ++ [0] ↔ k.getchar = .start ∧ k.queued = []) := by
  intro k
  have h : k.Inv := List.foldlRecOn es Keyboard.step
    ⟨by decide, by decide, rfl, by simp [Keyboard.init], fun h => absurd rfl h,
      by simp [Keyboard.init]⟩ fun _ h e _ => h.step e
  refine ⟨h.fifo, h.chars, fun c => (h.bufPush c).1, h.delivers, h.fetches, ?_⟩
  rw [h.queued_eq_nil, Keyboard.step]
  cases hg : k.getchar with
  | start => by_cases ht : k.bufTail = k.bufHead <;> simp [ht]
  | nonempty => simp
  | taken c => simp [h.taken_ne_zero hg]

/-- The key A is pressed, and `keyboard_getchar` returns its character. -/
theorem keyboard_fifo_key_a :
    ([.irq 0x1E, .get, .get, .get].foldl Keyboard.step .init).returned = [97] ∧
      ([.irq 0x1E, .get, .get, .get].foldl Keyboard.step .init).queued = [] := by
  obtain ⟨-, -, -, -, hget, -⟩ := keyboard_fifo [.irq 0x1E, .get, .get]
  obtain ⟨hqueued, -, hreturned⟩ := hget
  exact ⟨hreturned, (List.cons.inj hqueued).2.symm⟩

end AliOS
